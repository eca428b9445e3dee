import MiddlewareUtils.WindowCounter.Exact

/-!
# Which exact-mode keys expire

`takeExact` sets the expiry of a key with a command of its own, and only the
Take whose INCR was answered with one sends it. So between the INCR that
creates a key and its EXPIRE the key lives without an expiry, and one Take
knows. What is kept is that it still knows: a key without an expiry has a
Take in front of its EXPIRE.

Two things break it. An INCR that creates the key and whose reply is lost is
sent again, and answered with two (`lost_incr_never_expires`); when it is not
sent again nobody was answered at all. And an EXPIRE that fails without
reaching Redis is the last one, because the next INCR is answered with two as
well. Either way the key stays for good. Under neither (`settles`), and with
no Take in flight, nobody is left in front of an EXPIRE and every key has its
expiry, whatever else fails or is sent twice.
-/

namespace MiddlewareUtils.WindowCounter

open Lib Function

def Store.lasting (r : Store) (k : WindowKey) : Bool := (r k).any (·.expireAt.isNone)

/-- An INCR that creates its key is answered, or does not reach Redis; an
EXPIRE of a key without an expiry reaches it. -/
def settles (s : ExactState) : HitAction → Bool
  | .incr p out =>
    (s.takes p).all fun t =>
      (s.redis t.sliding.currentKey).isSome || decide (out ≠ .lost ∧ out ≠ .failed true)
  | .expire p out =>
    (s.takes p).all fun t =>
      !s.redis.lasting t.sliding.currentKey || decide (out ≠ .failed false)
  | _ => true

structure ExpiryInv (s : ExactState) : Prop where
  unborn : ∀ p, s.next ≤ p → s.takes p = none
  counted : ∀ k e, s.redis k = some e → 1 ≤ e.value
  known : ∀ k, s.redis.lasting k = true →
    ∃ p t c, s.takes p = some t ∧ t.sliding.currentKey = k ∧ t.pc = .expire c

namespace Store

variable {r : Store} {k j : WindowKey} {e : Entry}

theorem lasting_incrBy_of_some (h : r k = some e) (d : ℤ) :
    (r.incrBy k d).lasting j = r.lasting j := by
  rw [lasting, incrBy_apply]
  split
  next hj => rw [hj, lasting, h]; rfl
  · rfl

theorem lasting_expireAt {t : ℤ} :
    (r.expireAt k t).lasting j = if j = k then false else r.lasting j := by
  rw [lasting, expireAt_apply]
  split
  · cases r k <;> rfl
  · rfl

end Store

namespace ExpiryInv

variable {s : ExactState} {p : ℕ} {t : ExactTake}

theorem init : ExpiryInv .init := ⟨fun _ _ => rfl, nofun, nofun⟩

theorem goto (h : ExpiryInv s) (hp : s.takes p = some t) (pc : ExactPc)
    (hfree : ∀ c, t.pc = .expire c → s.redis.lasting t.sliding.currentKey = false) :
    ExpiryInv (s.goto p t pc) := by
  refine ⟨fun q hq => ?_, h.counted, fun k hk => ?_⟩
  · have hqp : q ≠ p := by
      rintro rfl
      exact nomatch hp.symm.trans (h.unborn q hq)
    exact (update_of_ne hqp ..).trans (h.unborn q hq)
  · obtain ⟨q, u, c, hq, hu, hc⟩ := h.known k hk
    have hqp : q ≠ p := by
      rintro rfl
      cases hp.symm.trans hq
      have hfalse := hfree c hc
      rw [hu] at hfalse
      exact Bool.false_ne_true (hfalse.symm.trans hk)
    exact ⟨q, u, c, (update_of_ne hqp ..).trans hq, hu, hc⟩

theorem applyIncr (h : ExpiryInv s) {k : WindowKey} {e : Entry} (hk : s.redis k = some e) :
    ExpiryInv (s.applyIncr k) := by
  refine ⟨h.unborn, fun j e' hj => ?_, fun j hj => ?_⟩
  · have hold := h.counted k e hk
    rcases update_eq_some hj with ⟨rfl, rfl⟩ | ⟨_, hj⟩
    · have hget : s.redis.get j = e.value := by rw [Store.get, hk]
      dsimp only
      omega
    · exact h.counted j e' hj
  · exact h.known j ((Store.lasting_incrBy_of_some hk 1).symm.trans hj)

theorem applyExpire (h : ExpiryInv s) (k : WindowKey) (ttlSec : ℤ) :
    ExpiryInv (s.applyExpire k ttlSec) := by
  refine ⟨h.unborn, fun j e' hj => ?_, fun j hj => ?_⟩
  · have hj : s.redis.expireAt k (s.redisNow + ttlSec) j = some e' := hj
    rw [Store.expireAt_apply] at hj
    split at hj
    · obtain ⟨e, hk, rfl⟩ := Option.map_eq_some_iff.mp hj
      exact h.counted k e hk
    · exact h.counted j e' hj
  · have hj : (s.redis.expireAt k (s.redisNow + ttlSec)).lasting j = true := hj
    rw [Store.lasting_expireAt] at hj
    split at hj
    · cases hj
    · exact h.known j hj

theorem created (h : ExpiryInv s) (hp : s.takes p = some t) (hpc : t.pc = .incr)
    (hget : s.redis.get t.sliding.currentKey = 0) :
    ExpiryInv ((s.applyIncr t.sliding.currentKey).goto p t (.expire 1)) := by
  have hself : ((s.applyIncr t.sliding.currentKey).goto p t (.expire 1)).takes p =
      some { t with pc := .expire 1 } := update_self ..
  refine ⟨fun q hq => ?_, fun j e hj => ?_, fun j hj => ?_⟩
  · have hqp : q ≠ p := by
      rintro rfl
      cases hp.symm.trans (h.unborn q hq)
    exact (update_of_ne hqp ..).trans (h.unborn q hq)
  · rcases update_eq_some hj with ⟨rfl, rfl⟩ | ⟨_, hj⟩
    · dsimp only
      omega
    · exact h.counted j e hj
  · by_cases hjk : j = t.sliding.currentKey
    · exact ⟨p, _, 1, hself, hjk.symm, rfl⟩
    · have hj : (s.redis.incrBy t.sliding.currentKey 1).lasting j = true := hj
      rw [Store.lasting, Store.incrBy, update_of_ne hjk] at hj
      obtain ⟨q, u, c, hq, hu, hc⟩ := h.known j hj
      have hqp : q ≠ p := by
        rintro rfl
        cases hp.symm.trans hq
        cases hpc.symm.trans hc
      exact ⟨q, u, c, (update_of_ne hqp ..).trans hq, hu, hc⟩

theorem stepIncr (h : ExpiryInv s) (hp : s.takes p = some t) (hpc : t.pc = .incr)
    {out : CallOutcome}
    (hsettles : s.redis t.sliding.currentKey = none → out ≠ .lost ∧ out ≠ .failed true) :
    ExpiryInv (s.stepIncr p t out) := by
  have hfree : ∀ (r : Store) c, t.pc = .expire c → r.lasting t.sliding.currentKey = false :=
    fun r c hc => absurd (hpc.symm.trans hc) nofun
  cases hk : s.redis t.sliding.currentKey with
  | some e =>
    have hinc := h.applyIncr hk
    cases out with
    | ok => exact hinc.goto hp _ (hfree _)
    | lost => exact hinc
    | failed applied =>
      cases applied with
      | true => exact hinc.goto hp _ (hfree _)
      | false => exact h.goto hp _ (hfree _)
  | none =>
    obtain ⟨hlost, hfailed⟩ := hsettles hk
    cases out with
    | lost => exact absurd rfl hlost
    | failed applied =>
      cases applied with
      | true => exact absurd rfl hfailed
      | false => exact h.goto hp _ (hfree _)
    | ok =>
      -- The key is new and its counter at one: this Take sends the EXPIRE.
      have hget : s.redis.get t.sliding.currentKey = 0 := by rw [Store.get, hk]
      have hone : (s.applyIncr t.sliding.currentKey).redis.get t.sliding.currentKey = 1 := by
        rw [ExactState.applyIncr, Store.get_incrBy_self, hget]
        rfl
      have hstep : s.stepIncr p t .ok =
          (s.applyIncr t.sliding.currentKey).goto p t (.expire 1) := by
        dsimp only [ExactState.stepIncr]
        rw [hone, if_pos rfl]
      rw [hstep]
      exact h.created hp hpc hget

theorem stepExpire (h : ExpiryInv s) (hp : s.takes p = some t) {c : ℤ} {out : CallOutcome}
    (hsettles : out = .failed false → s.redis.lasting t.sliding.currentKey = false) :
    ExpiryInv (s.stepExpire p t c out) := by
  have hexp := h.applyExpire t.sliding.currentKey t.sliding.ttlSec
  have hset : (s.applyExpire t.sliding.currentKey t.sliding.ttlSec).redis.lasting
      t.sliding.currentKey = false := Store.lasting_expireAt.trans (if_pos rfl)
  cases out with
  | ok => exact hexp.goto hp _ fun _ _ => hset
  | lost => exact hexp
  | failed applied =>
    cases applied with
    | true => exact hexp.goto hp _ fun _ _ => hset
    | false => exact h.goto hp _ fun _ _ => hsettles rfl

theorem noteRead (h : ExpiryInv s) (k : WindowKey) : ExpiryInv (s.noteRead k) := by
  unfold ExactState.noteRead
  split
  · exact h
  · exact ⟨h.unborn, h.counted, h.known⟩

theorem stepGetPrevious (h : ExpiryInv s) (hp : s.takes p = some t) {c : ℤ}
    (hpc : t.pc = .getPrevious c) (out : CallOutcome) :
    ExpiryInv (s.stepGetPrevious p t c out) := by
  have hfree : ∀ (r : Store) c, t.pc = .expire c → r.lasting t.sliding.currentKey = false :=
    fun r c hc => absurd (hpc.symm.trans hc) nofun
  have hnote := h.noteRead t.sliding.previousKey
  have hp' : (s.noteRead t.sliding.previousKey).takes p = some t := by
    unfold ExactState.noteRead
    split <;> exact hp
  cases out with
  | ok => exact hnote.goto hp' _ (hfree _)
  | lost => exact hnote
  | failed applied =>
    cases applied with
    | true => exact hnote.goto hp' _ (hfree _)
    | false => exact h.goto hp _ (hfree _)

theorem take (h : ExpiryInv s) {now : ℕ} {sl : SlidingWindow} :
    ExpiryInv { s with
      takes := update s.takes s.next (some ⟨now, sl, .incr⟩)
      next := s.next + 1 } := by
  refine ⟨fun q hq => ?_, h.counted, fun k hk => ?_⟩
  · have hlt : s.next < q := hq
    exact (update_of_ne hlt.ne' ..).trans (h.unborn q hlt.le)
  · obtain ⟨q, u, c, hq, hu, hc⟩ := h.known k hk
    have hne : q ≠ s.next := by
      rintro rfl
      exact nomatch hq.symm.trans (h.unborn _ le_rfl)
    exact ⟨q, u, c, (update_of_ne hne ..).trans hq, hu, hc⟩

theorem lose (h : ExpiryInv s) (k : WindowKey) : ExpiryInv { s with redis := s.redis.lose k } := by
  refine ⟨h.unborn, fun j e hj => ?_, fun j hj => ?_⟩
  · have hj : s.redis.lose k j = some e := hj
    by_cases hjk : j = k
    · rw [Store.lose, hjk, update_self] at hj
      cases hj
    · rw [Store.lose, update_of_ne hjk] at hj
      exact h.counted j e hj
  · have hj : (s.redis.lose k).lasting j = true := hj
    by_cases hjk : j = k
    · rw [Store.lasting, Store.lose, hjk, update_self] at hj
      cases hj
    · rw [Store.lasting, Store.lose, update_of_ne hjk] at hj
      exact h.known j hj

theorem step {a : HitAction} {s' : ExactState} (h : ExpiryInv s) (ha : settles s a = true)
    (hs : hitStep s a = some s') : ExpiryInv s' := by
  cases a with
  | take key window now =>
    simp only [hitStep, exactStep] at hs
    split at hs
    · injection hs with hs
      exact hs ▸ h
    · injection hs with hs
      exact hs ▸ h.take
  | incr p out =>
    simp only [hitStep, exactStep] at hs
    split at hs
    next t hp =>
      split at hs
      next hpc =>
        injection hs with hs
        rw [settles, hp, Option.all_some, Bool.or_eq_true, decide_eq_true_eq] at ha
        refine hs ▸ h.stepIncr hp hpc fun hnone => ha.resolve_left ?_
        rw [hnone]
        nofun
      · cases hs
    · cases hs
  | expire p out =>
    simp only [hitStep, exactStep] at hs
    split at hs
    next t hp =>
      split at hs
      · injection hs with hs
        rw [settles, hp, Option.all_some, Bool.or_eq_true, decide_eq_true_eq,
          Bool.not_eq_true'] at ha
        exact hs ▸ h.stepExpire hp fun hout => ha.resolve_right fun hne => hne hout
      · cases hs
    · cases hs
  | getPrevious p out =>
    simp only [hitStep, exactStep] at hs
    split at hs
    next t hp =>
      split at hs
      next hpc =>
        injection hs with hs
        exact hs ▸ h.stepGetPrevious hp hpc out
      · cases hs
    · cases hs
  | tick =>
    injection hs with hs
    exact hs ▸ ⟨h.unborn, h.counted, h.known⟩
  | lose k =>
    injection hs with hs
    exact hs ▸ h.lose k

end ExpiryInv

/-- When no Take is in flight every key that is there has an expiry. -/
theorem exact_keys_expire (acts : List HitAction) (s : ExactState)
    (hrun : run hitStep .init acts = some s)
    (hsettles : Along hitStep (fun s a => settles s a = true) .init acts)
    (hidle : s.idle = true) (k : WindowKey) (e : Entry) (hk : s.redis k = some e) :
    e.expireAt.isSome = true := by
  have hinv : ExpiryInv s :=
    run_inv_along (fun _ _ _ h ha hs => ExpiryInv.step h ha hs) hsettles .init hrun
  cases hexp : e.expireAt with
  | some => rfl
  | none =>
    have hlasting : s.redis.lasting k = true := by
      rw [Store.lasting, hk, Option.any_some, hexp]
      rfl
    obtain ⟨p, t, c, hp, -, hpc⟩ := hinv.known k hlasting
    have hlt : p < s.next := by
      by_contra hge
      exact nomatch hp.symm.trans (hinv.unborn p (not_lt.mp hge))
    have hnot := List.all_eq_true.mp hidle p (List.mem_range.mpr hlt)
    rw [hp, Option.all_some, ExactTake.inFlight, hpc] at hnot
    cases hnot

/-- Two Takes of one window: the second one's INCR is sent twice, and so is
the first one's EXPIRE. -/
def sentTwice : List HitAction :=
  [.take "k" second 0, .take "k" second 0, .incr 0 .ok, .incr 1 .lost, .incr 1 .ok,
    .expire 0 .lost, .getPrevious 1 .ok, .expire 0 .ok, .getPrevious 0 .ok]

theorem exact_keys_expire_sentTwice : ∃ s e,
    run hitStep .init sentTwice = some s ∧ s.idle = true ∧ s.redis ⟨"k", 0⟩ = some e ∧
    e.value = 3 ∧ e.expireAt.isSome = true :=
  ⟨_, _, rfl, by decide +kernel, rfl, by decide +kernel,
    exact_keys_expire sentTwice _ rfl (by decide +kernel) (by decide +kernel) ⟨"k", 0⟩ _ rfl⟩

/-- The reply to the first INCR of a key is lost. -/
def lostReply : List HitAction :=
  [.take "k" second 0, .incr 0 .lost, .incr 0 .ok, .getPrevious 0 .ok]

/-- The Take was answered with two, sent no EXPIRE and returned without an
error. -/
theorem lost_incr_never_expires : ∃ s t,
    run hitStep .init lostReply = some s ∧ s.idle = true ∧ s.takes 0 = some t ∧
    t.sliding.currentKey = ⟨"k", 0⟩ ∧ t.pc = .returned 2 0 ∧
    s.redis ⟨"k", 0⟩ = some ⟨2, none⟩ :=
  ⟨_, _, rfl, by decide +kernel, rfl, by decide +kernel, by decide +kernel, by decide +kernel⟩

end MiddlewareUtils.WindowCounter
