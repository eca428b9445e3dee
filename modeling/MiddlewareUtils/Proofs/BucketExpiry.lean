import MiddlewareUtils.Proofs.BucketRefunds

/-!
# A long enough ttl does not show

`Memory` forgets a bucket that was not asked for during `ttl` and starts the
next call on the key with a full one. When refilling for `ttl` makes up for
everything a bucket can lack, from its deepest debt up to `burst`, the
bucket it forgot was full as well, and forgetting cannot be seen.

The comparison is a simulation with a store that never forgets (`Forever`).
An entry that is live is that store's bucket. An entry that is gone may have
left a bucket there, and then this bucket is full at every reading from here
on: that is what its `ttl` of silence bought. The two clocks involved fit
together because `ttl` is a whole number of seconds: the expiry compares
nanoseconds and the refill subtracts truncated microseconds, and a distance
of whole microseconds survives the truncation.
-/

namespace MiddlewareUtils.TokenBucket

open Lib Function

/-- The store whose entries never expire. -/
def Forever.allow (c : ClockConfig) (buckets : String → Option Bucket) (r : Request) :
    (String → Option Bucket) × Answer :=
  match r.ctxErr with
  | some err => (buckets, .error err)
  | none =>
    let b := (buckets r.key).getD ⟨c.burst, unixMicro r.now⟩
    let out := consumeOne b c.limitPerMicro c.burst (unixMicro r.now) c.maxDelayMicro
    let wait := waitDuration out.waitMicro
    (update buckets r.key (some out.bucket),
      .ok (allowedFromWait wait c.maxDelay, wait))

/-- Refilling over `ttl` covers a bucket from its lowest level. -/
def ClockConfig.Covers (c : ClockConfig) : Prop :=
  c.burst + c.rate * (c.maxDelay / second) ≤ c.rate * (c.ttl / second)

instance (c : ClockConfig) : Decidable c.Covers := inferInstanceAs (Decidable (_ ≤ _))

variable {c : AcceptedClock}

/-! ## Silence fills a bucket -/

theorem unixMicro_ttl {τ now : ℤ} (h : τ + c.ttl ≤ now) :
    c.ttl ≤ (unixMicro now - unixMicro τ) * microsecond := by
  have hwhole := c.ttlSeconds_mul
  simp only [unixMicro, microsecond, second] at hwhole ⊢
  omega

theorem unixMicro_mono {τ now : ℤ} (h : τ ≤ now) : unixMicro τ ≤ unixMicro now :=
  Int.ediv_le_ediv (by decide) h

theorem full_of_silence (hcover : c.Covers) {b : Bucket} (hb : BucketInv c.toClockConfig b)
    {τ now : ℤ} (hlast : b.last ≤ unixMicro τ) (hsilent : τ + c.ttl ≤ now) {T : ℤ}
    (hT : unixMicro now ≤ T) : c.bring b T = c.full T := by
  have hr := c.limitPerMicro_pos
  have httl := unixMicro_ttl hsilent
  have hdelay := maxDelayMicro_mul_le (c := c)
  have hTlast : max b.last T = T := by
    have hbounds := c.bounds.2.2.2.1
    have := unixMicro_mono (show τ ≤ now by simp only [second] at hbounds; omega)
    omega
  -- The elapsed microseconds are worth what the bucket can lack.
  have hworth : (c.burst : ℚ) + c.limitPerMicro * c.maxDelayMicro ≤
      c.limitPerMicro * ((T - b.last : ℤ) : ℚ) := by
    have hel : (c.ttl : ℚ) ≤ ((T - b.last : ℤ) : ℚ) * microsecond := by
      have : c.ttl ≤ (T - b.last) * microsecond := by
        simp only [microsecond] at httl ⊢
        omega
      exact_mod_cast this
    have hrate : c.rate = c.limitPerMicro * 1000000 := by
      rw [ClockConfig.limitPerMicro]
      ring
    have hc : (c.burst : ℚ) + c.rate * (c.maxDelay / second) ≤ c.rate * (c.ttl / second) := hcover
    rw [hrate] at hc
    simp only [microsecond, second] at hel hdelay hc
    push_cast at hel hdelay hc ⊢
    nlinarith
  rw [ClockConfig.bring, ClockConfig.full, refill_eq, hTlast, min_eq_left]
  linarith [hb.low]

/-! ## The simulation -/

/-- How an entry that is live at `t`, or not there, goes with the bucket of
the store that never forgets. -/
inductive Tracks (c : ClockConfig) (t : ℤ) : Option MemEntry → Option Bucket → Prop
  | missing : Tracks c t none none
  | live {e : MemEntry} {τ : ℤ} (hτ : τ ≤ t) (hexpire : e.expireAt = τ + c.ttl)
      (hlast : e.bucket.last ≤ unixMicro τ) (hinv : BucketInv c e.bucket) :
      Tracks c t (some e) (some e.bucket)
  | forgotten {b : Bucket} (hfull : ∀ T, unixMicro t ≤ T → c.bring b T = c.full T) :
      Tracks c t none (some b)

namespace Tracks

variable {t now : ℤ} {e : Option MemEntry} {b : Option Bucket}

theorem later (hcover : c.Covers) (h : Tracks c.toClockConfig t e b) (hle : t ≤ now) :
    Tracks c.toClockConfig now (e.filter (Memory.live now)) b := by
  cases h with
  | missing => exact .missing
  | @live e τ hτ hexpire hlast hinv =>
    rw [Option.filter_some]
    split
    · exact .live (hτ.trans hle) hexpire hlast hinv
    next hdead =>
      have hsilent : τ + c.ttl ≤ now := by
        rw [← hexpire]
        exact not_lt.mp fun hlt => hdead (decide_eq_true hlt)
      exact .forgotten fun T hT => full_of_silence hcover hinv hlast hsilent hT
  | forgotten hfull => exact .forgotten fun T hT => hfull T ((unixMicro_mono hle).trans hT)

theorem consume (h : Tracks c.toClockConfig now e b) :
    c.consume (startOf c.toClockConfig now e) (unixMicro now) =
      c.consume (b.getD (c.full (unixMicro now))) (unixMicro now) := by
  cases h with
  | missing => rfl
  | live => rfl
  | @forgotten b hfull =>
    refine consume_of_bring ?_
    rw [show startOf c.toClockConfig now none = c.full (unixMicro now) from rfl,
      Option.getD_some, hfull _ (le_refl _)]
    simp [ClockConfig.bring, ClockConfig.full, refill_eq]

theorem start (h : Tracks c.toClockConfig now e b) :
    BucketInv c.toClockConfig (startOf c.toClockConfig now e) ∧
      (startOf c.toClockConfig now e).last ≤ unixMicro now := by
  cases h with
  | missing => exact ⟨bucketInv_full _, le_refl _⟩
  | live hτ _ hlast hinv => exact ⟨hinv, hlast.trans (unixMicro_mono hτ)⟩
  | forgotten => exact ⟨bucketInv_full _, le_refl _⟩

theorem left (h : Tracks c.toClockConfig now e b) :
    Tracks c.toClockConfig now (some (leftBy c.toClockConfig now e))
      (some (c.consume (b.getD (c.full (unixMicro now))) (unixMicro now)).answer.bucket) := by
  obtain ⟨hinv, hlast⟩ := h.start
  rw [← h.consume]
  refine .live (le_refl now) rfl ?_ (consume_inv hinv)
  show (c.consume (startOf c.toClockConfig now e) (unixMicro now)).answer.bucket.last ≤ _
  rw [consume_last]
  omega

end Tracks

/-- The stores go together key by key, at an instant the calls to come do not
precede, on fewer keys than the map holds. -/
structure Forgets (c : ClockConfig) (K : Finset String) (buckets : Buckets)
    (ideal : String → Option Bucket) (rest : List Request) : Prop where
  tracks : ∃ t, (∀ key, Tracks c t (liveAt buckets t key) (ideal key)) ∧ ∀ r ∈ rest, t ≤ r.now
  sorted : rest.Pairwise fun r r' => r.now ≤ r'.now
  mapped : ∀ a ∈ buckets, a ∈ K
  named : ∀ r ∈ rest, r.key ∈ K

theorem forgets_simulates {first : Buckets → String} {K : Finset String} (hcover : c.Covers)
    (hK : K.card < maxMemorySources) :
    Simulates (Memory.allow c.toClockConfig first) (Forever.allow c.toClockConfig)
      (Forgets c.toClockConfig K) := by
  intro buckets ideal r rest hR
  obtain ⟨t, htracks, hfrom⟩ := hR.tracks
  have hle : t ≤ r.now := hfrom r List.mem_cons_self
  have hnow : ∀ key, Tracks c.toClockConfig r.now (liveAt buckets r.now key) (ideal key) := by
    intro key
    have h := (htracks key).later hcover hle
    rwa [liveAt, filter_live_filter hle] at h
  obtain ⟨hnext, hsorted⟩ := List.pairwise_cons.mp hR.sorted
  have hnamed : ∀ r' ∈ rest, r'.key ∈ K := fun r' h => hR.named r' (List.mem_cons_of_mem _ h)
  cases hctx : r.ctxErr with
  | some err =>
    simp only [Memory.allow, Forever.allow, hctx]
    exact ⟨trivial, ⟨r.now, hnow, hnext⟩, hsorted, hR.mapped, hnamed⟩
  | none =>
    have hm := memory_allow_eq c first hctx hK hR.mapped
    have hans := congrArg Call.answer (hnow r.key).consume
    have hout : outOf c.toClockConfig r.now (liveAt buckets r.now r.key) =
        (c.consume ((ideal r.key).getD (c.full (unixMicro r.now))) (unixMicro r.now)).answer :=
      hans
    have hf : Forever.allow c.toClockConfig ideal r =
        (update ideal r.key (some (c.consume ((ideal r.key).getD
          (c.full (unixMicro r.now))) (unixMicro r.now)).answer.bucket),
          .ok (allowedFromWait (waitDuration (outOf c.toClockConfig r.now
            (liveAt buckets r.now r.key)).waitMicro) c.maxDelay,
            waitDuration (outOf c.toClockConfig r.now
              (liveAt buckets r.now r.key)).waitMicro)) := by
      simp only [Forever.allow, hctx, hout]
      rfl
    obtain ⟨-, hmem, hleft⟩ := entryFor_spec c first r.key r.now hK hR.mapped
    rw [hm, hf]
    refine ⟨rfl, ⟨r.now, fun key => ?_, hnext⟩, hsorted, fun a ha => ?_, hnamed⟩
    · dsimp only
      by_cases hk : key = r.key
      · subst hk
        have hafter := (hnow r.key).left.later hcover (le_refl r.now)
        rwa [liveAt, AList.lookup_insert, update_self]
      · rw [liveAt, AList.lookup_insert_ne hk, update_of_ne hk]
        have h := hnow key
        rwa [← hleft key hk] at h
    · rcases (AList.mem_insert _).mp ha with rfl | ha
      · exact hR.named r List.mem_cons_self
      · rcases hmem a ha with rfl | ha
        · exact hR.named r List.mem_cons_self
        · exact hR.mapped a ha

/-- Call by call the store that expires its entries answers like the one that
keeps them. -/
theorem expiry_invisible (c : AcceptedClock) (first : Buckets → String) (calls : List Request)
    (hcover : c.Covers) (hkeys : (calls.map Request.key).toFinset.card < maxMemorySources)
    (hclock : calls.Pairwise fun r r' => r.now ≤ r'.now) :
    outputs (Memory.allow c.toClockConfig first) ∅ calls =
      outputs (Forever.allow c.toClockConfig) (fun _ => none) calls := by
  apply (forgets_simulates hcover hkeys).outputs_eq
  refine ⟨⟨(calls.head?.map Request.now).getD 0, fun key => .missing, ?_⟩, hclock, ?_, ?_⟩
  · intro r hr
    cases calls with
    | nil => cases hr
    | cons r₀ rest =>
      rcases List.mem_cons.mp hr with rfl | hr
      · exact le_refl _
      · exact (List.pairwise_cons.mp hclock).1 r hr
  · intro a ha
    exact absurd ha (AList.notMem_empty a)
  · intro r hr
    exact List.mem_toFinset.mpr (List.mem_map_of_mem hr)

theorem expiry_invisible_brief :
    briefClock.Covers ∧
      (outputs (Forever.allow briefClock.toClockConfig) (fun _ => none) briefCalls).map
        Except.toOption =
        [some (true, 0), some (false, 500000000), some (true, 0), none, some (true, 0)] ∧
      outputs (Memory.allow briefClock.toClockConfig fun _ => "a") ∅ briefCalls =
        outputs (Forever.allow briefClock.toClockConfig) (fun _ => none) briefCalls :=
  ⟨by decide +kernel, by decide +kernel, expiry_invisible briefClock _ briefCalls
    (by decide +kernel) (by decide +kernel) (by decide +kernel)⟩

end MiddlewareUtils.TokenBucket
