import MiddlewareUtils.WindowCounter.SideBySide

/-!
# Two window lengths on one opaque key

A window key is the opaque key and the start of the window, and nothing of
the window's length. So two lengths share a counter whenever their aligned
starts meet, as all of them do at zero. A hit made with one length is then
counted by the other, and the key lives as long as whoever came first asked
for (`lengths_share_a_counter`).

Nothing else passes between them. A call reads two keys and a Take writes
one, so a call of one length shows in the answers of the other only through a
key a Take wrote. The two runs are compared on the keys the remaining calls
read, and there they agree after every move.
-/

namespace MiddlewareUtils.WindowCounter

open Lib

namespace Move

def window? : Move → Option ℤ
  | .take _ _ window _ | .peek _ _ window _ => some window
  | .tick => none

def sliding? : Move → Option SlidingWindow
  | .take key _ window now | .peek key _ window now => (slidingAt key window now).toOption
  | .tick => none

/-- The keys a call sends commands for. -/
def keys (m : Move) : List WindowKey :=
  match m.sliding? with
  | some sl => [sl.currentKey, sl.previousKey]
  | none => []

def hits : Move → Option WindowKey
  | .take key _ window now => (slidingAt key window now).toOption.map (·.currentKey)
  | _ => none

end Move

/-- The answers to the calls with window length `w`, in their order. -/
def answersOf (w : ℤ) : Redis → List Move → List (Option (Except WindowError Answer))
  | _, [] => []
  | r, m :: moves =>
    let rest := answersOf w (r.move m).1 moves
    if m.window? = some w then (r.move m).2 :: rest else rest

/-- The history without the calls with window length `w`. -/
def without (w : ℤ) (moves : List Move) : List Move := moves.filter (·.window? ≠ some w)

/-- No Take with length `w₁` increments a key that a call with length `w₂`
reads. -/
def Separate (w₁ w₂ : ℤ) (moves : List Move) : Prop :=
  ∀ m ∈ moves, m.window? = some w₁ → ∀ m' ∈ moves, m'.window? = some w₂ →
    ∀ k ∈ m'.keys, m.hits ≠ some k

instance (w₁ w₂ : ℤ) (moves : List Move) : Decidable (Separate w₁ w₂ moves) :=
  inferInstanceAs (Decidable (∀ m ∈ moves, _))

/-! ## What a call reads and writes -/

section Frame

variable {r r' : Store} {sl : SlidingWindow} {now limit : ℤ} {k : WindowKey}

theorem takeExact_frame (h : k ≠ sl.currentKey) : (takeExact r now sl limit).1 k = r k := by
  have hincr : r.incrBy sl.currentKey 1 k = r k := (Store.incrBy_apply 1).trans (if_neg h)
  dsimp only [takeExact]
  split
  · rw [Store.expireAt_apply, if_neg h, hincr]
  · exact hincr

theorem get_congr (h : r k = r' k) : r.get k = r'.get k := by
  rw [Store.get, Store.get, h]

theorem takeExact_store_congr (hcur : r sl.currentKey = r' sl.currentKey) (hk : r k = r' k) :
    (takeExact r now sl limit).1 k = (takeExact r' now sl limit).1 k := by
  by_cases h : k = sl.currentKey
  · dsimp only [takeExact]
    rw [Store.get_incrBy_self, Store.get_incrBy_self, get_congr hcur, h]
    split
    · rw [Store.expireAt_apply, Store.expireAt_apply, Store.incrBy_apply, Store.incrBy_apply,
        get_congr hcur, hcur]
    · rw [Store.incrBy_apply, Store.incrBy_apply, get_congr hcur, hcur]
  · rw [takeExact_frame h, takeExact_frame h, hk]

theorem takeExact_answer_congr (hcur : r sl.currentKey = r' sl.currentKey)
    (hprev : r sl.previousKey = r' sl.previousKey) :
    (takeExact r now sl limit).2 = (takeExact r' now sl limit).2 := by
  have hread := get_congr (@takeExact_store_congr r r' sl now limit sl.previousKey hcur hprev)
  dsimp only [takeExact] at hread ⊢
  rw [hread, Store.get_incrBy_self, Store.get_incrBy_self, get_congr hcur]

theorem peekExact_congr (hcur : r sl.currentKey = r' sl.currentKey)
    (hprev : r sl.previousKey = r' sl.previousKey) :
    peekExact r sl limit = peekExact r' sl limit := by
  rw [peekExact, peekExact, get_congr hcur, get_congr hprev]

end Frame

/-! ## The two runs -/

/-- The two runs look alike to the calls that read these keys. -/
structure Alike (K : Set WindowKey) (r r' : Redis) : Prop where
  now : r.now = r'.now
  store : ∀ k ∈ K, r.store k = r'.store k

namespace Alike

variable {K : Set WindowKey} {r r' : Redis} {m : Move}

theorem tick (h : Alike K r r') : Alike K r.tick r'.tick := by
  refine ⟨congrArg (· + 1) h.now, fun k hk => ?_⟩
  dsimp only [Redis.tick]
  rw [h.store k hk, h.now]

theorem removed (h : Alike K r r') (hm : m.window? ≠ none) (hhits : ∀ k ∈ K, m.hits ≠ some k) :
    Alike K (r.move m).1 r' := by
  cases m with
  | tick => exact absurd rfl hm
  | peek => exact h
  | take key limit window now =>
    dsimp only [Redis.move, Redis.take]
    cases hsl : slidingAt key window now with
    | error err => exact h
    | ok sl =>
      refine ⟨h.now, fun k hk => ?_⟩
      have hne : k ≠ sl.currentKey := by
        rintro rfl
        refine hhits _ hk ?_
        rw [Move.hits, hsl]
        rfl
      exact (@takeExact_frame r.store sl r.now limit k hne).trans (h.store k hk)

theorem both (h : Alike K r r') (hkeys : ∀ k ∈ m.keys, k ∈ K) :
    (r.move m).2 = (r'.move m).2 ∧ Alike K (r.move m).1 (r'.move m).1 := by
  cases m with
  | tick => exact ⟨rfl, h.tick⟩
  | peek key limit window now =>
    refine ⟨congrArg some ?_, h⟩
    dsimp only [Redis.peek]
    cases hsl : slidingAt key window now with
    | error err => rfl
    | ok sl =>
      rw [Move.keys, Move.sliding?, hsl] at hkeys
      exact congrArg Except.ok (peekExact_congr (h.store _ (hkeys _ (.head _)))
        (h.store _ (hkeys _ (.tail _ (.head _)))))
  | take key limit window now =>
    dsimp only [Redis.move, Redis.take]
    cases hsl : slidingAt key window now with
    | error err => exact ⟨rfl, h⟩
    | ok sl =>
      rw [Move.keys, Move.sliding?, hsl] at hkeys
      have hcur := h.store _ (hkeys _ (.head _))
      have hprev := h.store _ (hkeys _ (.tail _ (.head _)))
      dsimp only
      rw [h.now]
      rw [takeExact_answer_congr hcur hprev]
      refine ⟨rfl, rfl, fun k hk => ?_⟩
      exact @takeExact_store_congr r.store r'.store sl r'.now limit k hcur (h.store k hk)

end Alike

theorem alike_run {K : Set WindowKey} {w₁ w₂ : ℤ} (hne : w₁ ≠ w₂) (moves : List Move)
    (hlengths : ∀ m ∈ moves, m.window? = none ∨ m.window? = some w₁ ∨ m.window? = some w₂)
    (hkeys : ∀ m ∈ moves, m.window? = some w₂ → ∀ k ∈ m.keys, k ∈ K)
    (hhits : ∀ m ∈ moves, m.window? = some w₁ → ∀ k ∈ K, m.hits ≠ some k)
    {r r' : Redis} (h : Alike K r r') :
    answersOf w₂ r moves = answersOf w₂ r' (without w₁ moves) ∧
      Alike K (r.after moves) (r'.after (without w₁ moves)) := by
  induction moves generalizing r r' with
  | nil => exact ⟨rfl, h⟩
  | cons m moves ih =>
    have ih := @ih (fun m hm => hlengths m (.tail _ hm)) (fun m hm => hkeys m (.tail _ hm))
      (fun m hm => hhits m (.tail _ hm))
    rcases hlengths m (.head _) with hw | hw | hw
    · have htick : m = .tick := by
        cases m with
        | tick => rfl
        | take => cases hw
        | peek => cases hw
      subst htick
      exact ih h.tick
    · -- Only the run with all the calls makes this one.
      have hdrop : without w₁ (m :: moves) = without w₁ moves :=
        List.filter_cons_of_neg (by rw [hw]; simp)
      have hother : m.window? ≠ some w₂ := by
        rw [hw]
        exact fun heq => hne (Option.some.inj heq)
      rw [hdrop, answersOf, if_neg hother]
      exact ih (h.removed (by rw [hw]; nofun) (hhits m (.head _) hw))
    · have hkeep : without w₁ (m :: moves) = m :: without w₁ moves :=
        List.filter_cons_of_pos (by
          rw [hw, decide_eq_true_eq]
          exact fun heq => hne (Option.some.inj heq).symm)
      obtain ⟨hanswer, hnext⟩ := h.both (hkeys m (.head _) hw)
      obtain ⟨hrest, hend⟩ := ih hnext
      rw [hkeep, answersOf, answersOf, if_pos hw, if_pos hw, hanswer, hrest]
      exact ⟨rfl, hend⟩

/-- Where no Take with length `w₁` hits a key the calls with length `w₂`
read, those calls answer and leave their keys as if the others were not
there. -/
theorem lengths_do_not_interfere (w₁ w₂ : ℤ) (hne : w₁ ≠ w₂) (r : Redis) (moves : List Move)
    (hlengths : ∀ m ∈ moves, m.window? = none ∨ m.window? = some w₁ ∨ m.window? = some w₂)
    (hseparate : Separate w₁ w₂ moves) :
    answersOf w₂ r moves = answersOf w₂ r (without w₁ moves) ∧
      ∀ m ∈ moves, m.window? = some w₂ → ∀ k ∈ m.keys,
        (r.after moves).store k = (r.after (without w₁ moves)).store k := by
  let K : Set WindowKey := { k | ∃ m ∈ moves, m.window? = some w₂ ∧ k ∈ m.keys }
  obtain ⟨hanswers, halike⟩ := @alike_run K w₁ w₂ hne moves hlengths
    (fun m hm hw k hk => ⟨m, hm, hw, hk⟩)
    (fun m hm hw k ⟨m', hm', hw', hk⟩ => hseparate m hm hw m' hm' hw' k hk)
    r r ⟨rfl, fun _ _ => rfl⟩
  exact ⟨hanswers, fun m hm hw k hk => halike.store k ⟨m, hm, hw, hk⟩⟩

def emptyRedis : Redis := ⟨Store.empty, 0⟩

/-- One-second and two-second windows, at 3 and at 5 seconds. -/
def apart : List Move :=
  [.take "k" 5 second (3 * second), .take "k" 5 (2 * second) (5 * second), .tick,
    .peek "k" 5 second (4 * second), .take "k" 5 (2 * second) (5 * second)]

theorem lengths_do_not_interfere_apart :
    answersOf (2 * second) emptyRedis apart =
        [some (.ok ⟨true, 1⟩), some (.ok ⟨true, 2⟩)] ∧
      answersOf (2 * second) emptyRedis apart =
        answersOf (2 * second) emptyRedis (without second apart) ∧
      ∀ m ∈ apart, m.window? = some (2 * second : ℤ) → ∀ k ∈ m.keys,
        (emptyRedis.after apart).store k = (emptyRedis.after (without second apart)).store k :=
  ⟨by decide +kernel,
    lengths_do_not_interfere second (2 * second) (by decide) emptyRedis apart (by decide +kernel)
      (by decide +kernel)⟩

/-- A Take of one second and a Take of two, both in the window that starts at
zero. -/
def together : List Move := [.take "k" 5 second 0, .take "k" 5 (2 * second) 0]

/-- The second Take counts the first one's hit, and leaves the expiry the
first one asked for. -/
theorem lengths_share_a_counter :
    answersOf (2 * second) emptyRedis together = [some (.ok ⟨true, 2⟩)] ∧
      answersOf (2 * second) emptyRedis (without second together) = [some (.ok ⟨true, 1⟩)] ∧
      (emptyRedis.after together).store ⟨"k", 0⟩ = some ⟨2, some 2⟩ ∧
      (emptyRedis.after (without second together)).store ⟨"k", 0⟩ = some ⟨1, some 4⟩ := by
  decide +kernel

end MiddlewareUtils.WindowCounter
