import MiddlewareUtils.WindowCounter.SideBySide

/-!
# What a Peek sees while nobody hits

With no new hits the estimate of a key can only fall. Inside a window the
counts stay and the weight of the window before shrinks. When the window
rolls, the count that was current is weighted from then on, by at most one,
and the new current window is empty: every hit was made by a reading that
lies before it. When it rolls twice, both windows are.

The only thing asked of the counters is that they do not grow and never
exceed the hits made. So Redis may have lost keys in the meantime, and the two
GETs of a Peek may find two different states.
-/

namespace MiddlewareUtils.WindowCounter

open Lib Function

theorem peekAt_self (key : String) (window limit : ℤ) (now : ℕ) (r : Store) :
    peekAt key window limit now r r = (slidingAt key window now).map (peekExact r · limit) := rfl

/-! ## What a step does to the counters and the Takes -/

inductive Counted (s s' : ExactState) (a : ExactAction) : Prop
  | hit (p : ℕ) (out : CallOutcome) (t : ExactTake) (ha : a = .incr p out)
      (ht : s.takes p = some t)
      (hget : ∀ k, s'.redis.get k = s.redis.get k + if k = t.sliding.currentKey then 1 else 0)
      (hhits : ∀ k, s'.hits k = s.hits k + if k = t.sliding.currentKey then 1 else 0)
  | none (hget : ∀ k, s'.redis.get k = s.redis.get k ∨ s'.redis.get k = 0)
      (hhits : s'.hits = s.hits)

inductive TakeMoved (quota : String → Quota) (s s' : ExactState) (a : ExactAction) : Prop
  | called (key : String) (now : ℕ) (sl : SlidingWindow) (ha : a = .call key now)
      (hsl : slidingAt key (quota key).window now = .ok sl)
      (htakes : s'.takes = update s.takes s.next (some ⟨now, sl, .incr⟩))
  | went (p : ℕ) (t : ExactTake) (pc : ExactPc) (ht : s.takes p = some t)
      (htakes : s'.takes = update s.takes p (some { t with pc := pc }))
  | stayed (htakes : s'.takes = s.takes)

section Steps

variable {quota : String → Quota} {s s' : ExactState} {a : ExactAction} {p : ℕ} {t : ExactTake}

theorem applyIncr_counted {u : ExactState} (out : CallOutcome) (ht : s.takes p = some t)
    (hredis : u.redis = s.redis.incrBy t.sliding.currentKey 1)
    (hhits : u.hits = update s.hits t.sliding.currentKey
      (s.hits t.sliding.currentKey + 1)) : Counted s u (.incr p out) := by
  refine .hit p out t rfl ht (fun k => ?_) fun k => ?_
  · rw [hredis]
    split
    next h => rw [h, Store.get_incrBy_self]
    next h => rw [Store.get_incrBy_of_ne h, add_zero]
  · rw [hhits]
    split
    next h => rw [h, update_self]
    next h => rw [update_of_ne h, add_zero]

theorem noteRead_same (s : ExactState) (k : WindowKey) :
    (s.noteRead k).redis = s.redis ∧ (s.noteRead k).hits = s.hits ∧
      (s.noteRead k).takes = s.takes := by
  unfold ExactState.noteRead
  split <;> exact ⟨rfl, rfl, rfl⟩

theorem stepIncr_effect (ht : s.takes p = some t) (out : CallOutcome) :
    Counted s (s.stepIncr p t out) (.incr p out) ∧
      TakeMoved quota s (s.stepIncr p t out) (.incr p out) := by
  cases out with
  | ok => exact ⟨applyIncr_counted .ok ht rfl rfl, .went p t _ ht rfl⟩
  | lost => exact ⟨applyIncr_counted .lost ht rfl rfl, .stayed rfl⟩
  | failed applied =>
    cases applied with
    | true => exact ⟨applyIncr_counted (.failed true) ht rfl rfl, .went p t _ ht rfl⟩
    | false => exact ⟨.none (fun _ => .inl rfl) rfl, .went p t _ ht rfl⟩

theorem stepExpire_effect (ht : s.takes p = some t) (current : ℤ) (out : CallOutcome) :
    Counted s (s.stepExpire p t current out) a ∧
      TakeMoved quota s (s.stepExpire p t current out) a := by
  cases out with
  | ok => exact ⟨.none (fun _ => .inl Store.get_expireAt) rfl, .went p t _ ht rfl⟩
  | lost => exact ⟨.none (fun _ => .inl Store.get_expireAt) rfl, .stayed rfl⟩
  | failed applied =>
    cases applied with
    | true => exact ⟨.none (fun _ => .inl Store.get_expireAt) rfl, .went p t _ ht rfl⟩
    | false => exact ⟨.none (fun _ => .inl rfl) rfl, .went p t _ ht rfl⟩

theorem stepGetPrevious_effect (ht : s.takes p = some t) (current : ℤ) (out : CallOutcome) :
    Counted s (s.stepGetPrevious p t current out) a ∧
      TakeMoved quota s (s.stepGetPrevious p t current out) a := by
  obtain ⟨hredis, hhits, htakes⟩ := noteRead_same s t.sliding.previousKey
  have hget : ∀ k, (s.noteRead t.sliding.previousKey).redis.get k = s.redis.get k ∨
      (s.noteRead t.sliding.previousKey).redis.get k = 0 := fun k => .inl (by rw [hredis])
  cases out with
  | ok => exact ⟨.none hget hhits, .went p t _ ht (congrArg (update · p _) htakes)⟩
  | lost => exact ⟨.none hget hhits, .stayed htakes⟩
  | failed applied =>
    cases applied with
    | true => exact ⟨.none hget hhits, .went p t _ ht (congrArg (update · p _) htakes)⟩
    | false => exact ⟨.none (fun _ => .inl rfl) rfl, .went p t _ ht rfl⟩

theorem step_effect (hs : exactStep quota s a = some s') :
    Counted s s' a ∧ TakeMoved quota s s' a := by
  cases a with
  | call key now =>
    simp only [exactStep] at hs
    split at hs
    · injection hs with hs
      subst hs
      exact ⟨.none (fun _ => .inl rfl) rfl, .stayed rfl⟩
    next sl hsl =>
      injection hs with hs
      subst hs
      exact ⟨.none (fun _ => .inl rfl) rfl, .called key now sl rfl hsl rfl⟩
  | incr p out =>
    simp only [exactStep] at hs
    split at hs
    next t ht =>
      split at hs
      · injection hs with hs
        exact hs ▸ stepIncr_effect ht out
      · cases hs
    · cases hs
  | expire p out =>
    simp only [exactStep] at hs
    split at hs
    next t ht =>
      split at hs
      next current _ =>
        injection hs with hs
        exact hs ▸ stepExpire_effect ht current out
      · cases hs
    · cases hs
  | getPrevious p out =>
    simp only [exactStep] at hs
    split at hs
    next t ht =>
      split at hs
      next current _ =>
        injection hs with hs
        exact hs ▸ stepGetPrevious_effect ht current out
      · cases hs
    · cases hs
  | tick =>
    injection hs with hs
    subst hs
    exact ⟨.none (fun _ => .inl rfl) rfl, .stayed rfl⟩
  | lose k =>
    simp only [exactStep] at hs
    split at hs
    · injection hs with hs
      subst hs
      refine ⟨.none (fun j => ?_) rfl, .stayed rfl⟩
      by_cases hj : j = k
      · have hgone : s.redis.lose k k = none := update_self ..
        have hget : (s.redis.lose k).get k = 0 := by rw [Store.get, hgone]
        exact .inr (hj ▸ hget)
      · exact .inl (Store.get_lose_of_ne hj)
    · cases hs

end Steps

/-! ## The history of hits -/

/-- A Take of the key does not read a time after `t₁`. -/
def ReadBy (key : String) (t₁ : ℕ) : ExactAction → Prop
  | .call k now => k = key → now ≤ t₁
  | _ => True

instance (key : String) (t₁ : ℕ) : (a : ExactAction) → Decidable (ReadBy key t₁ a)
  | .call .. => inferInstanceAs (Decidable (_ → _))
  | .incr .. | .expire .. | .getPrevious .. | .tick | .lose .. => inferInstanceAs (Decidable True)

theorem unix_mono {t₁ t₂ : ℕ} (h : t₁ ≤ t₂) : unix t₁ ≤ unix t₂ :=
  Int.ofNat_le.mpr (Nat.div_le_div_right h)

structure HistoryInv (key : String) (t₁ : ℕ) (s : ExactState) : Prop where
  counts : ∀ k, 0 ≤ s.redis.get k ∧ s.redis.get k ≤ s.hits k
  takes : ∀ p t, s.takes p = some t → t.sliding.currentKey.opaqueKey = key →
    t.sliding.currentKey.windowStart ≤ unix t₁
  hits : ∀ k, k.opaqueKey = key → s.hits k ≠ 0 → k.windowStart ≤ unix t₁

namespace HistoryInv

variable {quota : String → Quota} {key : String} {t₁ : ℕ} {s s' : ExactState} {a : ExactAction}

theorem init : HistoryInv key t₁ .init :=
  ⟨fun _ => ⟨le_refl _, le_refl _⟩, nofun, fun _ _ h => absurd rfl h⟩

theorem step (h : HistoryInv key t₁ s) (ha : ReadBy key t₁ a)
    (hs : exactStep quota s a = some s') : HistoryInv key t₁ s' := by
  obtain ⟨hcounted, hmoved⟩ := step_effect hs
  refine ⟨fun k => ?_, fun p t ht hkey => ?_, fun k hkey hne => ?_⟩
  · obtain ⟨hpos, hle⟩ := h.counts k
    cases hcounted with
    | hit p out t _ _ hget hhits =>
      rw [hget, hhits]
      split <;> omega
    | none hget hhits =>
      rw [hhits]
      rcases hget k with heq | heq <;> rw [heq] <;> omega
  · cases hmoved with
    | called k now sl hcall hsl htakes =>
      subst hcall
      rw [htakes] at ht
      rcases update_eq_some ht with ⟨_, rfl⟩ | ⟨_, ht⟩
      · obtain ⟨_, hspec⟩ := slidingAt_ok hsl
        exact hspec.start_le.trans (unix_mono (ha (hspec.current_opaque.symm.trans hkey)))
      · exact h.takes p t ht hkey
    | went q u pc hu htakes =>
      rw [htakes] at ht
      rcases update_eq_some ht with ⟨_, rfl⟩ | ⟨_, ht⟩
      · exact h.takes q u hu hkey
      · exact h.takes p t ht hkey
    | stayed htakes => exact h.takes p t (htakes ▸ ht) hkey
  · cases hcounted with
    | hit p out t _ ht _ hhits =>
      by_cases hk : k = t.sliding.currentKey
      · rw [hk] at hkey ⊢
        exact h.takes p t ht hkey
      · rw [hhits, if_neg hk, add_zero] at hne
        exact h.hits k hkey hne
    | none _ hhits => exact h.hits k hkey (hhits ▸ hne)

end HistoryInv

/-! ## While nobody hits -/

def Unhit (key : String) (s : ExactState) (a : ExactAction) : Prop :=
  ∀ p out, a = .incr p out → ∀ t, s.takes p = some t → t.sliding.currentKey.opaqueKey ≠ key

/-- A run of any Takes and of Redis that lands no hit on the key. -/
def Quiet (quota : String → Quota) (key : String) (s s' : ExactState) : Prop :=
  ∃ acts, run (exactStep quota) s acts = some s' ∧ Along (exactStep quota) (Unhit key) s acts

def Faded (key : String) (r r' : Store) : Prop :=
  ∀ k, k.opaqueKey = key → 0 ≤ r'.get k ∧ r'.get k ≤ r.get k

theorem Faded.step {quota : String → Quota} {key : String} {r : Store} {s s' : ExactState}
    {a : ExactAction} (h : Faded key r s.redis) (ha : Unhit key s a)
    (hs : exactStep quota s a = some s') : Faded key r s'.redis := by
  intro k hkey
  obtain ⟨h0, hle⟩ := h k hkey
  cases (step_effect hs).1 with
  | hit p out t hincr ht hget _ =>
    have hne : k ≠ t.sliding.currentKey := by
      intro heq
      exact ha p out hincr t ht (heq ▸ hkey)
    rw [hget, if_neg hne, add_zero]
    exact ⟨h0, hle⟩
  | none hget _ => rcases hget k with heq | heq <;> rw [heq] <;> omega

theorem Faded.trans {key : String} {r r' r'' : Store} (h : Faded key r r')
    (h' : Faded key r' r'') : Faded key r r'' :=
  fun k hkey => ⟨(h' k hkey).1, (h' k hkey).2.trans (h k hkey).2⟩

theorem Quiet.faded {quota : String → Quota} {key : String} {s s' : ExactState}
    (h : Quiet quota key s s') (hpos : ∀ k, k.opaqueKey = key → 0 ≤ s.redis.get k) :
    Faded key s.redis s'.redis := by
  obtain ⟨acts, hrun, hunhit⟩ := h
  have hstep : ∀ u a u', Faded key s.redis u.redis → Unhit key u a →
      exactStep quota u a = some u' → Faded key s.redis u'.redis :=
    fun _ _ _ hu ha hs => hu.step ha hs
  exact run_inv_along hstep hunhit (fun k hk => ⟨hpos k hk, le_refl _⟩) hrun

/-! ## The estimate -/

theorem SlidingSpec.weight_bounds {key : String} {windowSec : ℤ} {now : ℕ} {sl : SlidingWindow}
    (hpos : 0 < windowSec) (h : SlidingSpec key windowSec now sl) :
    0 < sl.weight ∧ sl.weight ≤ 1 := by
  have hw : (0 : ℚ) < windowSec := by exact_mod_cast hpos
  have hstart := h.start_le
  have hend := h.lt_end
  have hoff : (0 : ℚ) ≤ ((unix now - sl.currentKey.windowStart : ℤ) : ℚ) := by
    exact_mod_cast sub_nonneg.mpr hstart
  have hlt : ((unix now - sl.currentKey.windowStart : ℤ) : ℚ) < windowSec := by
    exact_mod_cast sub_lt_iff_lt_add'.mpr hend
  rw [h.weight_eq]
  have hone := (div_lt_one hw).mpr hlt
  have hzero := div_nonneg hoff hw.le
  constructor <;> linarith

theorem SlidingSpec.rolled {key : String} {windowSec : ℤ} {t₁ t₂ : ℕ} {sl₁ sl₂ : SlidingWindow}
    (hpos : 0 < windowSec) (h₁ : SlidingSpec key windowSec t₁ sl₁)
    (h₂ : SlidingSpec key windowSec t₂ sl₂) (ht : t₁ ≤ t₂) :
    sl₂.currentKey.windowStart = sl₁.currentKey.windowStart ∨
      sl₂.currentKey.windowStart = sl₁.currentKey.windowStart + windowSec ∨
      sl₁.currentKey.windowStart + 2 * windowSec ≤ sl₂.currentKey.windowStart := by
  obtain ⟨m, hm⟩ := h₁.aligned
  obtain ⟨n, hn⟩ := h₂.aligned
  have hle : m ≤ n := by
    have hlt : windowSec * m < windowSec * (n + 1) := by
      have hmono := unix_mono ht
      have hstart := h₁.start_le
      have hend := h₂.lt_end
      rw [mul_add, mul_one, ← hm, ← hn]
      omega
    exact Int.lt_add_one_iff.mp (lt_of_mul_lt_mul_left hlt hpos.le)
  rw [hm, hn]
  rcases hle.eq_or_lt with rfl | hlt
  · exact .inl rfl
  · rcases (Int.add_one_le_iff.mpr hlt).eq_or_lt with rfl | hlt
    · exact .inr (.inl (by ring))
    · refine .inr (.inr ?_)
      have hmul := mul_le_mul_of_nonneg_left (Int.add_one_le_iff.mpr hlt) hpos.le
      linarith

theorem SlidingSpec.weight_anti {key : String} {windowSec : ℤ} {t₁ t₂ : ℕ}
    {sl₁ sl₂ : SlidingWindow} (hpos : 0 < windowSec) (h₁ : SlidingSpec key windowSec t₁ sl₁)
    (h₂ : SlidingSpec key windowSec t₂ sl₂) (ht : t₁ ≤ t₂)
    (hsame : sl₂.currentKey.windowStart = sl₁.currentKey.windowStart) :
    sl₂.weight ≤ sl₁.weight := by
  have hw : (0 : ℚ) ≤ windowSec := by exact_mod_cast hpos.le
  have hoff : ((unix t₁ - sl₁.currentKey.windowStart : ℤ) : ℚ) ≤
      ((unix t₂ - sl₁.currentKey.windowStart : ℤ) : ℚ) := by
    exact_mod_cast sub_le_sub_right (unix_mono ht) _
  rw [h₁.weight_eq, h₂.weight_eq, hsame]
  exact sub_le_sub_left (div_le_div_of_nonneg_right hoff hw) 1

theorem SlidingSpec.current_eq {key : String} {windowSec : ℤ} {now : ℕ} {sl : SlidingWindow}
    (h : SlidingSpec key windowSec now sl) :
    sl.currentKey = ⟨key, sl.currentKey.windowStart⟩ := by
  rw [← h.current_opaque]

theorem peekAt_ok {key : String} {window limit : ℤ} {now : ℕ} {r r' : Store} {a : Answer}
    (h : peekAt key window limit now r r' = .ok a) :
    ∃ sl, 0 < window / second ∧ SlidingSpec key (window / second) now sl ∧
      a.estimated = r.get sl.currentKey + r'.get sl.previousKey * sl.weight ∧
      (a.allowed = true ↔ a.estimated ≤ limit) := by
  unfold peekAt at h
  cases hsl : slidingAt key window now with
  | error e =>
    rw [hsl] at h
    cases h
  | ok sl =>
    rw [hsl] at h
    injection h with h
    subst h
    obtain ⟨hpos, hspec⟩ := slidingAt_ok hsl
    exact ⟨sl, hpos, hspec, rfl, decide_eq_true_iff⟩

theorem estimate_le {c₁ p₁ c₂ p₂ : ℤ} {w₁ w₂ : ℚ} (hc : c₂ ≤ c₁) (hp : p₂ ≤ p₁) (h0 : 0 ≤ p₂)
    (hw : w₂ ≤ w₁) (hw₁ : 0 ≤ w₁) : (c₂ : ℚ) + p₂ * w₂ ≤ c₁ + p₁ * w₁ := by
  have hc : (c₂ : ℚ) ≤ c₁ := by exact_mod_cast hc
  have hp : (p₂ : ℚ) ≤ p₁ := by exact_mod_cast hp
  have h0 : (0 : ℚ) ≤ p₂ := by exact_mod_cast h0
  have hmul : (p₂ : ℚ) * w₂ ≤ p₁ * w₁ := by
    calc (p₂ : ℚ) * w₂ ≤ p₂ * w₁ := mul_le_mul_of_nonneg_left hw h0
      _ ≤ p₁ * w₁ := mul_le_mul_of_nonneg_right hp hw₁
  linarith

/-! ## Two Peeks -/

section Peeks

variable {quota : String → Quota} {key : String} {t₁ t₂ : ℕ} {s₁ s₁' s₂ s₂' : ExactState}

theorem HistoryInv.get_eq_zero (h : HistoryInv key t₁ s₁) {r : Store}
    (hfaded : Faded key s₁.redis r) {k : WindowKey} (hkey : k.opaqueKey = key)
    (hnone : s₁.hits k = 0) : r.get k = 0 := by
  have hle := (h.counts k).2
  obtain ⟨h0, hr⟩ := hfaded k hkey
  omega

theorem HistoryInv.get_late (h : HistoryInv key t₁ s₁) {r : Store}
    (hfaded : Faded key s₁.redis r) {k : WindowKey} (hkey : k.opaqueKey = key)
    (hlate : unix t₁ < k.windowStart) : r.get k = 0 := by
  refine h.get_eq_zero hfaded hkey (by_contra fun hne => ?_)
  exact absurd (h.hits k hkey hne) (not_le.mpr hlate)

theorem estimate_anti {windowSec : ℤ} {sl₁ sl₂ : SlidingWindow} (h : HistoryInv key t₁ s₁)
    (ht : t₁ ≤ t₂) (hpos : 0 < windowSec) (h₁ : SlidingSpec key windowSec t₁ sl₁)
    (h₂ : SlidingSpec key windowSec t₂ sl₂) (f₁ : Faded key s₁.redis s₁'.redis)
    (f₂ : Faded key s₁'.redis s₂.redis) (f₃ : Faded key s₂.redis s₂'.redis) :
    (s₂.redis.get sl₂.currentKey : ℚ) + s₂'.redis.get sl₂.previousKey * sl₂.weight ≤
      s₁.redis.get sl₁.currentKey + s₁'.redis.get sl₁.previousKey * sl₁.weight := by
  obtain ⟨hw₁, hle₁⟩ := h₁.weight_bounds hpos
  obtain ⟨hw₂, hle₂⟩ := h₂.weight_bounds hpos
  have f₁₂ := f₁.trans f₂
  have f₁₃ := f₁₂.trans f₃
  have hend := h₁.lt_end
  have hprev₁ : sl₁.previousKey.opaqueKey = key := congrArg WindowKey.opaqueKey h₁.previous
  have hprev₂ : sl₂.previousKey.opaqueKey = key := congrArg WindowKey.opaqueKey h₂.previous
  have hstart₂ : sl₂.previousKey.windowStart = sl₂.currentKey.windowStart - windowSec :=
    congrArg WindowKey.windowStart h₂.previous
  have hp₁ := (f₁ _ hprev₁).1
  rcases SlidingSpec.rolled hpos h₁ h₂ ht with hsame | hnext | hlater
  · -- The same window: the counts have faded and the weight is smaller.
    have hc : sl₂.currentKey = sl₁.currentKey := by
      rw [h₁.current_eq, h₂.current_eq, hsame]
    have hp : sl₂.previousKey = sl₁.previousKey := by rw [h₁.previous, h₂.previous, hsame]
    rw [hc, hp]
    exact estimate_le (f₁₂ _ h₁.current_opaque).2 ((f₂.trans f₃) _ hprev₁).2
      (f₁₃ _ hprev₁).1 (h₁.weight_anti hpos h₂ ht hsame) hw₁.le
  · -- The next one: what was current is now weighted, and nothing is current.
    have hp : sl₂.previousKey = sl₁.currentKey := by
      rw [h₁.current_eq, h₂.previous, hnext, add_sub_cancel_right]
    have hzero := h.get_late f₁₂ h₂.current_opaque (by omega)
    obtain ⟨h0, hle⟩ := f₁₃ _ h₁.current_opaque
    rw [hp, hzero]
    have hcount : (s₂'.redis.get sl₁.currentKey : ℚ) ≤ s₁.redis.get sl₁.currentKey := by
      exact_mod_cast hle
    have hcount0 : (0 : ℚ) ≤ s₂'.redis.get sl₁.currentKey := by exact_mod_cast h0
    have hrest : (0 : ℚ) ≤ s₁'.redis.get sl₁.previousKey * sl₁.weight :=
      mul_nonneg (by exact_mod_cast hp₁) hw₁.le
    have hweighted := mul_le_of_le_one_right hcount0 hle₂
    push_cast
    linarith
  · -- Further on: both windows start after the last hit.
    have hzero := h.get_late f₁₂ h₂.current_opaque (by omega)
    have hzero' := h.get_late f₁₃ hprev₂ (by omega)
    have hc0 : (0 : ℚ) ≤ s₁.redis.get sl₁.currentKey := by
      exact_mod_cast (h.counts sl₁.currentKey).1
    have hrest : (0 : ℚ) ≤ s₁'.redis.get sl₁.previousKey * sl₁.weight :=
      mul_nonneg (by exact_mod_cast hp₁) hw₁.le
    rw [hzero, hzero']
    push_cast
    linarith

end Peeks

/-- All hits on the key were made by readings up to `t₁`, and none is made from
the Peek at `t₁` to the end of the Peek at `t₂`: then the second estimate is at
most the first, and zero two windows after the last window hit. -/
theorem peek_decays (quota : String → Quota) (key : String) (t₁ t₂ : ℕ) (ht : t₁ ≤ t₂)
    (hits : List ExactAction) (s₁ s₁' s₂ s₂' : ExactState)
    (hrun : run (exactStep quota) .init hits = some s₁) (hby : ∀ a ∈ hits, ReadBy key t₁ a)
    (q₁ : Quiet quota key s₁ s₁') (q₂ : Quiet quota key s₁' s₂) (q₃ : Quiet quota key s₂ s₂')
    (limit : ℤ) (a₁ a₂ : Answer)
    (hp₁ : peekAt key (quota key).window limit t₁ s₁.redis s₁'.redis = .ok a₁)
    (hp₂ : peekAt key (quota key).window limit t₂ s₂.redis s₂'.redis = .ok a₂) :
    a₂.estimated ≤ a₁.estimated ∧
      (a₁.allowed = true → a₂.allowed = true) ∧
      (∀ last, (∀ k, k.opaqueKey = key → s₁.hits k ≠ 0 → k.windowStart ≤ last) →
        last + 2 * (quota key).windowSec ≤ unix t₂ → a₂.estimated = 0) ∧
      ∀ now sl, slidingAt key (quota key).window now = .ok sl →
        0 < sl.weight ∧ sl.weight ≤ 1 := by
  have hinv : HistoryInv key t₁ s₁ :=
    run_inv_along (fun _ _ _ h ha hs => h.step ha hs) (along_of_forall hby _) .init hrun
  have f₁ := q₁.faded fun k _ => (hinv.counts k).1
  have f₂ := q₂.faded fun k hk => (f₁ k hk).1
  have f₃ := q₃.faded fun k hk => (f₂ k hk).1
  obtain ⟨sl₁, hpos, h₁, he₁, hallowed₁⟩ := peekAt_ok hp₁
  obtain ⟨sl₂, -, h₂, he₂, hallowed₂⟩ := peekAt_ok hp₂
  have hle : a₂.estimated ≤ a₁.estimated := by
    rw [he₁, he₂]
    exact estimate_anti hinv ht hpos h₁ h₂ f₁ f₂ f₃
  refine ⟨hle, fun h => hallowed₂.mpr (hle.trans (hallowed₁.mp h)), fun last hlast hlate => ?_, ?_⟩
  · have hend := h₂.lt_end
    have hprev : sl₂.previousKey.windowStart =
        sl₂.currentKey.windowStart - (quota key).window / second :=
      congrArg WindowKey.windowStart h₂.previous
    have hkey : sl₂.previousKey.opaqueKey = key := congrArg WindowKey.opaqueKey h₂.previous
    have hnone : ∀ k, k.opaqueKey = key → last < k.windowStart → s₁.hits k = 0 :=
      fun k hk hlt => by_contra fun hne => absurd (hlast k hk hne) (not_le.mpr hlt)
    rw [Quota.windowSec] at hlate
    rw [he₂, hinv.get_eq_zero (f₁.trans f₂) h₂.current_opaque
        (hnone _ h₂.current_opaque (by omega)),
      hinv.get_eq_zero ((f₁.trans f₂).trans f₃) hkey (hnone _ hkey (by omega))]
    push_cast
    ring
  · intro now sl hsl
    obtain ⟨hpos, hspec⟩ := slidingAt_ok hsl
    exact hspec.weight_bounds hpos

def perSecond : String → Quota := fun _ => ⟨1, second⟩

def oneHit : List ExactAction :=
  [.call "k" 0, .incr 0 .ok, .expire 0 .ok, .getPrevious 0 .ok]

theorem peek_decays_oneHit :
    ∃ s a₁ a₂, run (exactStep perSecond) .init oneHit = some s ∧
      peekAt "k" second 1 0 s.redis s.redis = .ok a₁ ∧
      peekAt "k" second 1 second s.redis s.redis = .ok a₂ ∧
      a₂.estimated ≤ a₁.estimated ∧ (a₁.allowed = true → a₂.allowed = true) := by
  refine ⟨_, _, _, rfl, rfl, rfl, ?_⟩
  have h := peek_decays perSecond "k" 0 second (by decide) oneHit _ _ _ _ rfl (by decide)
    ⟨[], rfl, trivial⟩ ⟨[], rfl, trivial⟩ ⟨[], rfl, trivial⟩ 1 _ _ rfl rfl
  exact ⟨h.1, h.2.1⟩

end MiddlewareUtils.WindowCounter
