import MiddlewareUtils.WindowCounter.Exact
import Mathlib.Algebra.Order.Floor.Ring
import Mathlib.Data.Int.Interval

/-!
# Exact mode and the sliding bound

Every Take of a window holds a different INCR reply, and a Take that was
allowed holds one that fits under the limit together with the weighted
count of the window before. So the allowed Takes of window `k` up to
offset `e` inject into the integers from one to `limit - P * (1 - e/w)`,
where `P` is what the window before had collected when it was first read:
later readers saw at least as much, and an earlier offset weighs it more.

The argument needs both counters to be what the hits made them, so it
needs Redis to have kept both keys. `takeExact` asks for two window
lengths of life and never looks at the clock again after `slidingAt`. A
GET that runs late finds the previous window gone and admits what it
should not; `sliding_bound_fails_on_late_get` is that run, with clocks that
agree and a key that lived exactly as long as it was asked to.
-/

namespace MiddlewareUtils.WindowCounter

open Lib Function

/-- What every step preserves while neither `k` nor the window before it is
lost. -/
structure ExactInv (quota : String → Quota) (k : WindowKey) (s : ExactState) : Prop where
  unborn : ∀ p, s.next ≤ p → s.takes p = none
  sliding : ∀ p t, s.takes p = some t → t.sliding.currentKey = k →
    0 < (quota k.opaqueKey).windowSec ∧
      SlidingSpec k.opaqueKey (quota k.opaqueKey).windowSec t.now t.sliding
  value : s.redis.get k = s.hits k
  previousValue : s.redis.get (previousOf quota k) = s.hits (previousOf quota k)
  nonneg : ∀ k', 0 ≤ s.hits k'
  current : ∀ p t c, s.takes p = some t → t.sliding.currentKey = k →
    t.current? = some c → 1 ≤ c ∧ c ≤ s.hits k
  distinct : ∀ p q t u c, s.takes p = some t → s.takes q = some u →
    t.sliding.currentKey = k → u.sliding.currentKey = k →
    t.current? = some c → u.current? = some c → p = q
  firstRead : ∀ P, s.firstRead (previousOf quota k) = some P →
    0 ≤ P ∧ P ≤ s.hits (previousOf quota k)
  read : ∀ p t c v, s.takes p = some t → t.sliding.currentKey = k →
    t.pc = .returned c v → ∃ P, s.firstRead (previousOf quota k) = some P ∧ P ≤ v

theorem exactInv_init (quota : String → Quota) (k : WindowKey) :
    ExactInv quota k ExactState.init where
  unborn := fun _ _ => rfl
  sliding := fun p t h => by cases h
  value := rfl
  previousValue := rfl
  nonneg := fun _ => le_refl _
  current := fun p t c h => by cases h
  distinct := fun p q t u c h => by cases h
  firstRead := fun P h => by cases h
  read := fun p t c v h => by cases h

/-! ## The four things a step does

A step lands an INCR, sets an expiry, notes a read or moves one Take; each
keeps the invariant, and the steps are put together from them. -/

section Ops

variable {quota : String → Quota} {k : WindowKey} {s : ExactState}

theorem ExactInv.applyIncr (h : ExactInv quota k s) (k' : WindowKey) :
    ExactInv quota k (s.applyIncr k') := by
  have hgrow : ∀ j, s.hits j ≤ (s.applyIncr k').hits j := by
    intro j
    by_cases hj : j = k'
    · subst hj; simp [ExactState.applyIncr]
    · simp [ExactState.applyIncr, update_of_ne hj]
  have hval : ∀ j, s.redis.get j = s.hits j →
      (s.applyIncr k').redis.get j = (s.applyIncr k').hits j := by
    intro j hv
    by_cases hj : j = k'
    · subst hj; simp [ExactState.applyIncr, hv]
    · simp [ExactState.applyIncr, update_of_ne hj, Store.get_incrBy_of_ne hj, hv]
  exact
    { unborn := h.unborn
      sliding := h.sliding
      value := hval _ h.value
      previousValue := hval _ h.previousValue
      nonneg := fun j => le_trans (h.nonneg j) (hgrow j)
      current := fun p t c hp ht hc =>
        ⟨(h.current p t c hp ht hc).1, le_trans (h.current p t c hp ht hc).2 (hgrow k)⟩
      distinct := h.distinct
      firstRead := fun P hP =>
        ⟨(h.firstRead P hP).1, le_trans (h.firstRead P hP).2 (hgrow _)⟩
      read := h.read }

theorem ExactInv.applyExpire (h : ExactInv quota k s) (k' : WindowKey) (ttl : ℤ) :
    ExactInv quota k (s.applyExpire k' ttl) :=
  { h with
    value := by rw [ExactState.applyExpire, Store.get_expireAt]; exact h.value
    previousValue := by
      rw [ExactState.applyExpire, Store.get_expireAt]; exact h.previousValue }

theorem ExactInv.noteRead (h : ExactInv quota k s) (k' : WindowKey) :
    ExactInv quota k (s.noteRead k') := by
  unfold ExactState.noteRead
  split
  · exact h
  next hnone =>
    by_cases hk : previousOf quota k = k'
    · subst hk
      have hself : update s.firstRead (previousOf quota k)
          (some (s.hits (previousOf quota k))) (previousOf quota k) =
          some (s.hits (previousOf quota k)) := update_self ..
      refine { h with firstRead := ?_, read := ?_ }
      · intro P hP
        injection hself.symm.trans hP with hP
        exact hP ▸ ⟨h.nonneg _, le_refl _⟩
      · intro p t c v hp ht hpc
        obtain ⟨P, hP, _⟩ := h.read p t c v hp ht hpc
        rw [hnone] at hP
        cases hP
    · have hother : update s.firstRead k' (some (s.hits k')) (previousOf quota k) =
          s.firstRead (previousOf quota k) := update_of_ne hk ..
      refine { h with firstRead := ?_, read := ?_ }
      · intro P hP
        exact h.firstRead P (hother.symm.trans hP)
      · intro p t c v hp ht hpc
        obtain ⟨P, hP, hle⟩ := h.read p t c v hp ht hpc
        exact ⟨P, hother.trans hP, hle⟩

theorem ExactInv.lose (h : ExactInv quota k s) {k' : WindowKey} (hk : k' ≠ k)
    (hprev : k' ≠ previousOf quota k) :
    ExactInv quota k { s with redis := s.redis.lose k' } :=
  { h with
    value := by rw [Store.get_lose_of_ne hk.symm]; exact h.value
    previousValue := by rw [Store.get_lose_of_ne hprev.symm]; exact h.previousValue }

theorem ExactInv.goto (h : ExactInv quota k s) {p : ℕ} {t : ExactTake} {pc : ExactPc}
    (hp : s.takes p = some t)
    (hcur : t.sliding.currentKey = k → ∀ c, ({ t with pc := pc }).current? = some c →
      t.current? = some c ∨ (1 ≤ c ∧ c ≤ s.hits k ∧ ∀ q u, s.takes q = some u →
        u.sliding.currentKey = k → u.current? ≠ some c))
    (hread : t.sliding.currentKey = k → ∀ c v, pc = .returned c v →
      ∃ P, s.firstRead (previousOf quota k) = some P ∧ P ≤ v) :
    ExactInv quota k (s.goto p t pc) := by
  have hself : (s.goto p t pc).takes p = some { t with pc := pc } :=
    update_self ..
  have hother : ∀ q, q ≠ p → (s.goto p t pc).takes q = s.takes q :=
    fun q hq => update_of_ne hq ..
  -- A Take of the new state is the moved one or an old one.
  have hcases : ∀ q u, (s.goto p t pc).takes q = some u →
      (q = p ∧ u = { t with pc := pc }) ∨ (q ≠ p ∧ s.takes q = some u) := by
    intro q u hq
    by_cases hqp : q = p
    · subst hqp
      rw [hself] at hq
      injection hq with hq
      exact .inl ⟨rfl, hq.symm⟩
    · rw [hother q hqp] at hq
      exact .inr ⟨hqp, hq⟩
  refine { h with unborn := ?_, sliding := ?_, current := ?_, distinct := ?_, read := ?_ }
  · intro q hq
    have hqp : q ≠ p := by
      rintro rfl
      have hnone := h.unborn q hq
      rw [hp] at hnone
      cases hnone
    rw [hother q hqp]
    exact h.unborn q hq
  · intro q u hq hu
    rcases hcases q u hq with ⟨_, rfl⟩ | ⟨_, hq'⟩
    · exact h.sliding p t hp hu
    · exact h.sliding q u hq' hu
  · intro q u c hq hu hc
    rcases hcases q u hq with ⟨_, rfl⟩ | ⟨_, hq'⟩
    · rcases hcur hu c hc with hold | ⟨h1, h2, _⟩
      · exact h.current p t c hp hu hold
      · exact ⟨h1, h2⟩
    · exact h.current q u c hq' hu hc
  · intro q r u v c hq hr hu hv hcu hcv
    rcases hcases q u hq with ⟨rfl, rfl⟩ | ⟨_, hq'⟩ <;>
      rcases hcases r v hr with ⟨rfl, rfl⟩ | ⟨_, hr'⟩
    · rfl
    · rcases hcur hu c hcu with hold | ⟨_, _, hnew⟩
      · exact h.distinct q r t v c hp hr' hu hv hold hcv
      · exact absurd hcv (hnew r v hr' hv)
    · rcases hcur hv c hcv with hold | ⟨_, _, hnew⟩
      · exact h.distinct q r u t c hq' hp hu hv hcu hold
      · exact absurd hcu (hnew q u hq' hu)
    · exact h.distinct q r u v c hq' hr' hu hv hcu hcv
  · intro q u c v hq hu hpc
    rcases hcases q u hq with ⟨_, rfl⟩ | ⟨_, hq'⟩
    · exact hread hu c v hpc
    · exact h.read q u c v hq' hu hpc

end Ops

/-! ## The steps -/

section Steps

variable {quota : String → Quota} {k : WindowKey} {s : ExactState} {p : ℕ} {t : ExactTake}

theorem ExactInv.failed (h : ExactInv quota k s) (hp : s.takes p = some t) :
    ExactInv quota k (s.goto p t .failed) :=
  h.goto hp (fun _ c hc => by cases hc) (fun _ c v hv => by cases hv)

theorem ExactInv.stepIncr (h : ExactInv quota k s) (hp : s.takes p = some t)
    (out : CallOutcome) : ExactInv quota k (s.stepIncr p t out) := by
  have hinc := h.applyIncr t.sliding.currentKey
  cases out with
  | lost => exact hinc
  | failed applied =>
    cases applied with
    | true => exact hinc.failed hp
    | false => exact h.failed hp
  | ok =>
    refine hinc.goto hp ?_ ?_
    · intro hk c hc
      -- The reply is the counter just incremented; the others hold older ones.
      have hcv : c = s.hits k + 1 := by
        have hval := hinc.value
        rw [hk] at hval hc
        have hhits : (s.applyIncr k).hits k = s.hits k + 1 := update_self ..
        rw [hval, hhits] at hc
        split at hc <;> (injection hc with hc; exact hc.symm)
      refine .inr ⟨?_, ?_, ?_⟩
      · have := h.nonneg k
        omega
      · rw [hk, hcv]
        exact le_of_eq (update_self k (s.hits k + 1) s.hits).symm
      · intro q u hq hu huc
        have := (h.current q u c hq hu huc).2
        omega
    · intro _ c v hv
      split at hv <;> cases hv

theorem ExactInv.stepExpire (h : ExactInv quota k s) (hp : s.takes p = some t) {c : ℤ}
    (hpc : t.pc = .expire c) (out : CallOutcome) :
    ExactInv quota k (s.stepExpire p t c out) := by
  have hexp := h.applyExpire t.sliding.currentKey t.sliding.ttlSec
  cases out with
  | lost => exact hexp
  | failed applied =>
    cases applied with
    | true => exact hexp.failed hp
    | false => exact h.failed hp
  | ok =>
    refine hexp.goto hp ?_ ?_
    · intro _ c' hc'
      have hold : t.current? = some c := by rw [ExactTake.current?, hpc]
      exact .inl (hold.trans hc')
    · intro _ c v hv
      cases hv

theorem ExactInv.stepGetPrevious (h : ExactInv quota k s) (hp : s.takes p = some t) {c : ℤ}
    (hpc : t.pc = .getPrevious c) (out : CallOutcome) :
    ExactInv quota k (s.stepGetPrevious p t c out) := by
  have hnote := h.noteRead t.sliding.previousKey
  have hp' : (s.noteRead t.sliding.previousKey).takes p = some t := by
    unfold ExactState.noteRead
    split <;> exact hp
  cases out with
  | lost => exact hnote
  | failed applied =>
    cases applied with
    | true => exact hnote.failed hp'
    | false => exact h.failed hp
  | ok =>
    refine hnote.goto hp' ?_ ?_
    · intro _ c' hc'
      have hold : t.current? = some c := by rw [ExactTake.current?, hpc]
      exact .inl (hold.trans hc')
    · intro hk c' v hv
      injection hv with _ hv
      have hprev : t.sliding.previousKey = previousOf quota k := by
        have hspec := (h.sliding p t hp hk).2.previous
        rw [hspec, hk, previousOf]
      rw [hprev] at hv hnote ⊢
      -- The count read is the hits so far, and the first read was no later.
      rw [h.previousValue] at hv
      cases hf : s.firstRead (previousOf quota k) with
      | none =>
        refine ⟨s.hits (previousOf quota k), ?_, le_of_eq hv⟩
        unfold ExactState.noteRead
        rw [hf]
        exact update_self ..
      | some P =>
        refine ⟨P, ?_, ?_⟩
        · unfold ExactState.noteRead
          rw [hf]
          exact hf
        · rw [← hv]
          exact (h.firstRead P hf).2

theorem ExactInv.call (h : ExactInv quota k s) {key : String} {now : ℕ}
    {sl : SlidingWindow} (hsl : slidingAt key (quota key).window now = .ok sl) :
    ExactInv quota k { s with
      takes := update s.takes s.next (some ⟨now, sl, .incr⟩)
      next := s.next + 1 } := by
  obtain ⟨hpos, hspec⟩ := slidingAt_ok hsl
  have hcases : ∀ q u,
      update s.takes s.next (some ⟨now, sl, .incr⟩) q = some u →
      u = ⟨now, sl, .incr⟩ ∨ s.takes q = some u := by
    intro q u hq
    by_cases hqn : q = s.next
    · subst hqn
      rw [update_self] at hq
      injection hq with hq
      exact .inl hq.symm
    · rw [update_of_ne hqn] at hq
      exact .inr hq
  refine { h with unborn := ?_, sliding := ?_, current := ?_, distinct := ?_, read := ?_ }
  · intro q hq
    have hlt : s.next < q := hq
    exact (update_of_ne (ne_of_gt hlt) ..).trans (h.unborn q (le_of_lt hlt))
  · intro q u hq hu
    rcases hcases q u hq with rfl | hq'
    · have hkey : key = k.opaqueKey := by rw [← hspec.current_opaque, ← hu]
      subst hkey
      exact ⟨hpos, hspec⟩
    · exact h.sliding q u hq' hu
  · intro q u c hq hu hc
    rcases hcases q u hq with rfl | hq'
    · cases hc
    · exact h.current q u c hq' hu hc
  · intro q r u v c hq hr hu hv hcu hcv
    rcases hcases q u hq with rfl | hq'
    · cases hcu
    · rcases hcases r v hr with rfl | hr'
      · cases hcv
      · exact h.distinct q r u v c hq' hr' hu hv hcu hcv
  · intro q u c v hq hu hpc
    rcases hcases q u hq with rfl | hq'
    · cases hpc
    · exact h.read q u c v hq' hu hpc

theorem exactInv_step (h : ExactInv quota k s) {a : ExactAction} {s' : ExactState}
    (hkeep : a ≠ .lose k ∧ a ≠ .lose (previousOf quota k))
    (hs : exactStep quota s a = some s') : ExactInv quota k s' := by
  cases a with
  | call key now =>
    simp only [exactStep] at hs
    split at hs
    · injection hs with hs
      exact hs ▸ h
    next sl hsl =>
      injection hs with hs
      exact hs ▸ h.call hsl
  | incr p out =>
    simp only [exactStep] at hs
    split at hs
    next t hp =>
      split at hs
      · injection hs with hs
        exact hs ▸ h.stepIncr hp out
      · cases hs
    · cases hs
  | expire p out =>
    simp only [exactStep] at hs
    split at hs
    next t hp =>
      split at hs
      next c hpc =>
        injection hs with hs
        exact hs ▸ h.stepExpire hp hpc out
      · cases hs
    · cases hs
  | getPrevious p out =>
    simp only [exactStep] at hs
    split at hs
    next t hp =>
      split at hs
      next c hpc =>
        injection hs with hs
        exact hs ▸ h.stepGetPrevious hp hpc out
      · cases hs
    · cases hs
  | tick =>
    simp only [exactStep] at hs
    injection hs with hs
    exact hs ▸ { h with }
  | lose k' =>
    simp only [exactStep] at hs
    split at hs
    · injection hs with hs
      exact hs ▸ h.lose (fun hk => hkeep.1 (by rw [hk])) (fun hk => hkeep.2 (by rw [hk]))
    · cases hs

end Steps

/-! ## The bound

An admitted Take's INCR reply lies between one and the bound, and replies
are distinct, so counting the Takes is counting integers. -/

section Bound

variable {quota : String → Quota} {k : WindowKey} {s : ExactState}

theorem ExactInv.admitted_current (h : ExactInv quota k s) {e : ℚ} {p : ℕ} {t : ExactTake}
    (hp : s.takes p = some t)
    (ha : t.admittedBy (quota k.opaqueKey).limit k e = true) :
    ∃ c, t.sliding.currentKey = k ∧ t.current? = some c ∧ 1 ≤ c ∧
      (c : ℚ) ≤ (quota k.opaqueKey).limit - s.hitsBeforeRead (previousOf quota k) *
        (1 - e / (quota k.opaqueKey).windowSec) := by
  simp only [ExactTake.admittedBy, Bool.and_eq_true, decide_eq_true_eq] at ha
  obtain ⟨⟨hk, hoff⟩, hall⟩ := ha
  obtain ⟨hpos, hspec⟩ := h.sliding p t hp hk
  unfold ExactTake.allowed at hall
  split at hall
  next c v hpc =>
    have hcur : t.current? = some c := by rw [ExactTake.current?, hpc]
    obtain ⟨P, hP, hPv⟩ := h.read p t c v hp hk hpc
    have hP0 := (h.firstRead P hP).1
    refine ⟨c, hk, hcur, (h.current p t c hp hk hcur).1, ?_⟩
    rw [decide_eq_true_eq, ExactTake.estimated, hspec.weight_eq] at hall
    rw [ExactState.hitsBeforeRead, hP, Option.getD_some]
    have hw : (0 : ℚ) < (quota k.opaqueKey).windowSec := by exact_mod_cast hpos
    -- An offset of at most `e` weighs the window before at least as much.
    have hoff' : ((unix t.now - t.sliding.currentKey.windowStart : ℤ) : ℚ) ≤ e := hoff
    have hweight : 1 - e / (quota k.opaqueKey).windowSec ≤
        1 - ((unix t.now - t.sliding.currentKey.windowStart : ℤ) : ℚ) /
          (quota k.opaqueKey).windowSec := by
      have := div_le_div_of_nonneg_right hoff' (le_of_lt hw)
      linarith
    have hnonneg : 0 ≤ 1 - ((unix t.now - t.sliding.currentKey.windowStart : ℤ) : ℚ) /
        (quota k.opaqueKey).windowSec := by
      have hlt : ((unix t.now - t.sliding.currentKey.windowStart : ℤ) : ℚ) <
          (quota k.opaqueKey).windowSec := by
        have := hspec.lt_end
        exact_mod_cast (by omega : unix t.now - t.sliding.currentKey.windowStart <
          (quota k.opaqueKey).windowSec)
      have := (div_lt_one hw).mpr hlt
      linarith
    have hPq : (0 : ℚ) ≤ P := by exact_mod_cast hP0
    have hPvq : (P : ℚ) ≤ v := by exact_mod_cast hPv
    have h1 := mul_le_mul_of_nonneg_left hweight hPq
    have h2 := mul_le_mul_of_nonneg_right hPvq hnonneg
    linarith
  · cases hall

theorem ExactInv.slidingBound (h : ExactInv quota k s) (e : ℚ) :
    SlidingBound quota s k e := by
  unfold SlidingBound exactAdmitted
  set bound : ℚ := (quota k.opaqueKey).limit - s.hitsBeforeRead (previousOf quota k) *
    (1 - e / (quota k.opaqueKey).windowSec) with hbound
  set admitted := (Finset.range s.next).filter fun p =>
    (s.takes p).any (·.admittedBy (quota k.opaqueKey).limit k e) with hadmitted
  have hmem : ∀ p ∈ admitted, ∃ t c,
      s.takes p = some t ∧ t.sliding.currentKey = k ∧ t.current? = some c ∧ 1 ≤ c ∧
        (c : ℚ) ≤ bound := by
    intro p hp
    have hany := (Finset.mem_filter.mp hp).2
    cases ht : s.takes p with
    | none => rw [ht] at hany; cases hany
    | some t =>
      rw [ht] at hany
      obtain ⟨c, hk, hc, h1, hle⟩ := h.admitted_current ht hany
      exact ⟨t, c, rfl, hk, hc, h1, hle⟩
  choose! take reply htake using hmem
  have hcard := Finset.card_le_card_of_injOn (t := Finset.Icc 1 ⌊bound⌋) reply
    (fun p hp => by
      obtain ⟨_, _, _, h1, hle⟩ := htake p hp
      exact Finset.mem_coe.mpr (Finset.mem_Icc.mpr ⟨h1, Int.le_floor.mpr hle⟩))
    (fun p hp q hq heq => by
      obtain ⟨htp, hkp, hcp, _, _⟩ := htake p hp
      obtain ⟨htq, hkq, hcq, _, _⟩ := htake q hq
      exact h.distinct p q _ _ _ htp htq hkp hkq hcp (heq ▸ hcq))
  rw [Int.card_Icc] at hcard
  rcases le_or_gt 0 ⌊bound⌋ with hpos | hneg
  · have hfl := Int.floor_le bound
    have hnat : ((⌊bound⌋ + 1 - 1).toNat : ℤ) = ⌊bound⌋ := by omega
    refine le_max_of_le_right (le_trans ?_ hfl)
    have hz : (admitted.card : ℤ) ≤ ⌊bound⌋ := by rw [← hnat]; exact_mod_cast hcard
    exact_mod_cast hz
  · refine le_max_of_le_left ?_
    have hzero : (⌊bound⌋ + 1 - 1).toNat = 0 := by omega
    rw [hzero] at hcard
    exact_mod_cast hcard

end Bound

/-- For every interleaving of exact-mode Takes in which Redis keeps window
`k` and the window before it: the Takes of `k` up to offset `e` that were
allowed are at most `limit - P * (1 - e / window)`, `P` being the hits the
window before had when a Take of `k` first read it. -/
theorem exact_sliding_bound (quota : String → Quota) (acts : List ExactAction)
    (s : ExactState) (hrun : run (exactStep quota) ExactState.init acts = some s)
    (k : WindowKey) (hkept : ∀ a ∈ acts, a ≠ .lose k ∧ a ≠ .lose (previousOf quota k))
    (e : ℚ) : SlidingBound quota s k e := by
  exact (run_inv_along (fun s a s' hi hP hs => exactInv_step hi hP hs)
    (along_of_forall hkept _) (exactInv_init quota k) hrun).slidingBound e

/-- One hit a second on every key. -/
def oneASecond : String → Quota := fun _ => ⟨1, 1000000000⟩

/-- A Take in the first second and one in the second, with no time between
the second one's commands. -/
def promptGet : List ExactAction :=
  [.call "k" 0, .incr 0 .ok, .expire 0 .ok, .getPrevious 0 .ok, .tick,
    .call "k" 1000000000, .incr 1 .ok, .expire 1 .ok, .getPrevious 1 .ok]

/-- The same two Takes, the second one's GET a second late: the window
before is two windows old by then and gone. -/
def lateGet : List ExactAction :=
  [.call "k" 0, .incr 0 .ok, .expire 0 .ok, .getPrevious 0 .ok, .tick,
    .call "k" 1000000000, .incr 1 .ok, .expire 1 .ok, .tick, .lose ⟨"k", 0⟩,
    .getPrevious 1 .ok]

theorem exact_sliding_bound_promptGet :
    ∃ s, run (exactStep oneASecond) ExactState.init promptGet = some s ∧
      SlidingBound oneASecond s ⟨"k", 1⟩ 0 :=
  ⟨_, rfl, exact_sliding_bound oneASecond promptGet _ rfl ⟨"k", 1⟩ (by decide +kernel) 0⟩

/-- One hit on the window before and a limit of one leave no room in this
window, and the late Take is allowed all the same. -/
theorem sliding_bound_fails_on_late_get :
    ∃ s, run (exactStep oneASecond) ExactState.init lateGet = some s ∧
      exactAdmitted oneASecond s ⟨"k", 1⟩ 0 = 1 ∧
      s.hitsBeforeRead (previousOf oneASecond ⟨"k", 1⟩) = 1 ∧
      ¬ SlidingBound oneASecond s ⟨"k", 1⟩ 0 := by
  refine ⟨_, rfl, by decide +kernel, by decide +kernel, ?_⟩
  unfold SlidingBound
  decide +kernel

end MiddlewareUtils.WindowCounter
