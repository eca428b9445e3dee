import MiddlewareUtils.Lib.History
import MiddlewareUtils.Proofs.ReclaimLifecycle
import MiddlewareUtils.Proofs.ReclaimMapping

/-!
# Which callback ends a sleep

Every `parkAsleep` arms a grace timer, and an Open that takes the value back
stops it. `Timer.Stop` comes too late for a callback that has started, and
`claimExpire` does not ask which sleep it was armed for: it takes any slot
it finds asleep without holders. So a callback that is held up between its
start and `claimExpire` can end a later sleep long before that sleep's own
grace is over; `staleCallback` is such a run.

This is the only way it can happen. As long as no Open takes back a value
while a started callback of it has yet to run `claimExpire`, a sleeping slot
waits for exactly one timer, the one its last `parkAsleep` armed: an armed
timer's slot sleeps under it, and so does the slot of a started callback.
-/

namespace MiddlewareUtils.Reclaim

open Lib Function

variable {V : Type}

def recordSleep (i : ℕ) (o : Option (ℕ × ℕ)) : Event → Option (ℕ × ℕ)
  | .asleep j timer due => if j = i then some (timer, due) else o
  | _ => o

/-- The timer of the last `parkAsleep` of slot `i`, with the end of its grace. -/
def lastSleep (i : ℕ) (log : List Event) : Option (ℕ × ℕ) := log.foldl (recordSleep i) none

/-- `claimExpire` takes a slot only for the timer of its last `parkAsleep`
and once that timer's grace is over. -/
def HonoursGrace (pre : List Event) (e : Event) : Prop :=
  ∀ i by' now, e = .expired i by' now →
    ∃ timer due, lastSleep i pre = some (timer, due) ∧ by' = some timer ∧ due ≤ now

def World.reclaims (w : World V) : Action V → Option ℕ
  | .run p _ =>
    match w.procs p with
    | some ⟨.opener key _ _, .lookup⟩ =>
      match w.table.items key with
      | some i => if (w.table.slots i).state = .asleep then some i else none
      | none => none
    | _ => none
  | _ => none

/-- Process `q` is a started callback of slot `i` that has yet to run
`claimExpire`. -/
def World.callbackOf (w : World V) (i q : ℕ) : Bool :=
  match w.procs q with
  | some ⟨.grace _, .claimExpire j _⟩ => j == i
  | _ => false

/-- No value is taken back under a started callback. -/
def StopsInTime (w : World V) (a : Action V) : Prop :=
  ∀ i ∈ w.reclaims a, ∀ q < w.next, w.callbackOf i q = false

instance (w : World V) (a : Action V) : Decidable (StopsInTime w a) := by
  unfold StopsInTime
  infer_instance

def Pc.expires : Pc V → ℕ → Prop
  | claimExpire i _, j => j = i
  | _, _ => False

structure GraceInv (w : World V) : Prop where
  mapped : MappedInv w
  positive : w.table.grace ≠ 0
  armed : ∀ t, (w.table.timers t).status = .armed → t < w.table.nextTimer ∧
    (w.table.slots (w.table.timers t).slot).state = .asleep ∧
    (w.table.slots (w.table.timers t).slot).graceTimer = some t
  expires : ∀ p q i, w.procs p = some q → q.pc.expires i → ∃ t, q.caller = .grace t ∧
    (w.table.slots i).state = .asleep ∧ (w.table.slots i).graceTimer = some t ∧
    (w.table.timers t).due ≤ w.now
  fired : ∀ p q t, w.procs p = some q → q.caller = .grace t →
    t < w.table.nextTimer ∧ (w.table.timers t).status = .started
  once : ∀ p q p' q' t, w.procs p = some q → w.procs p' = some q' → q.caller = .grace t →
    q'.caller = .grace t → p = p'
  asleep : ∀ i, (w.table.slots i).state = .asleep → ∃ t, t < w.table.nextTimer ∧
    (w.table.slots i).graceTimer = some t ∧
    lastSleep i w.log = some (t, (w.table.timers t).due)
  honours : Precedes HonoursGrace w.log

/-! ## Events -/

def Event.sleepFree : Event → Prop
  | asleep _ _ _ | expired _ _ _ => False
  | _ => True

theorem lastSleep_append {i : ℕ} {log evs : List Event} :
    lastSleep i (log ++ evs) = evs.foldl (recordSleep i) (lastSleep i log) :=
  List.foldl_append

theorem lastSleep_of_other {i : ℕ} {log evs : List Event}
    (hevs : ∀ e ∈ evs, ∀ t d, e ≠ .asleep i t d) : lastSleep i (log ++ evs) = lastSleep i log := by
  induction evs generalizing log with
  | nil => rw [List.append_nil]
  | cons e evs ih =>
    have hrec : recordSleep i (lastSleep i log) e = lastSleep i log := by
      cases e with
      | asleep j t d =>
        exact if_neg fun hj => hevs _ List.mem_cons_self t d (by rw [hj])
      | _ => rfl
    rw [lastSleep_append, List.foldl_cons, hrec, ← lastSleep_append]
    exact ih fun e' he' => hevs e' (List.mem_cons_of_mem e he')

theorem sleepFree_leave {p : ℕ} {err : Option OpenError} : ∀ e ∈ leave p err, e.sleepFree := by
  intro e he
  cases err with
  | none => cases he
  | some err =>
    rw [List.mem_singleton.mp he]
    trivial

/-! ## Steps that put nothing to sleep -/

structure Still (L : ℕ → Prop) (t t' : Table V) : Prop where
  timer : ∀ u, (t'.timers u).due = (t.timers u).due ∧ (t'.timers u).slot = (t.timers u).slot
  armed : ∀ u, (t'.timers u).status = .armed →
    (t.timers u).status = .armed ∧ ¬ L (t.timers u).slot
  started : ∀ u, (t.timers u).status = .started → (t'.timers u).status = .started
  nextTimer : t'.nextTimer = t.nextTimer
  grace : t'.grace = t.grace
  asleep : ∀ j, (t'.slots j).state = .asleep ↔ (t.slots j).state = .asleep ∧ ¬ L j
  under : ∀ j, (t.slots j).state = .asleep → ¬ L j →
    (t'.slots j).graceTimer = (t.slots j).graceTimer

theorem Still.touch {t t' : Table V} {i : ℕ} {s : Slot V} (ht : t.Touches i s t')
    (htimer : ∀ u, (t'.timers u).due = (t.timers u).due ∧
      (t'.timers u).slot = (t.timers u).slot)
    (harmed : ∀ u, (t'.timers u).status = .armed →
      (t.timers u).status = .armed ∧ (t.timers u).slot ≠ i)
    (hstarted : ∀ u, (t.timers u).status = .started → (t'.timers u).status = .started)
    (hnext : t'.nextTimer = t.nextTimer) (hs : s.state ≠ .asleep) : Still (· = i) t t' := by
  refine ⟨htimer, harmed, hstarted, hnext, ht.grace, fun j => ?_, fun j _ hj => ?_⟩
  · rw [ht.slots]
    by_cases hji : j = i
    · rw [hji, update_self]
      exact ⟨fun h => absurd h hs, fun h => absurd rfl h.2⟩
    · rw [update_of_ne hji]
      exact ⟨fun h => ⟨h, hji⟩, fun h => h.1⟩
  · rw [ht.slots, update_of_ne hj]

theorem Still.quiet {t t' : Table V} (htimers : t'.timers = t.timers)
    (hnext : t'.nextTimer = t.nextTimer) (hgrace : t'.grace = t.grace)
    (hslot : ∀ j, ((t'.slots j).state = (t.slots j).state ∧
        (t'.slots j).graceTimer = (t.slots j).graceTimer) ∨
      (t'.slots j).state ≠ .asleep ∧ (t.slots j).state ≠ .asleep) :
    Still (fun _ => False) t t' := by
  refine ⟨fun u => ?_, fun u hu => ?_, fun u hu => ?_, hnext, hgrace, fun j => ?_,
    fun j hj _ => ?_⟩
  · rw [htimers]
    exact ⟨rfl, rfl⟩
  · rw [htimers] at hu
    exact ⟨hu, id⟩
  · rw [htimers]
    exact hu
  · rcases hslot j with ⟨he, _⟩ | ⟨h1, h2⟩
    · rw [he]
      exact ⟨fun h => ⟨h, id⟩, fun h => h.1⟩
    · exact ⟨fun h => absurd h h1, fun h => absurd h.1 h2⟩
  · rcases hslot j with ⟨_, he⟩ | ⟨_, h2⟩
    · exact he
    · exact absurd hj h2

theorem Table.timers_stopTimer (t : Table V) (o : Option ℕ) (u : ℕ) :
    ((t.stopTimer o).timers u).due = (t.timers u).due ∧
    ((t.stopTimer o).timers u).slot = (t.timers u).slot ∧
    (((t.stopTimer o).timers u).status = .armed → (t.timers u).status = .armed ∧ o ≠ some u) ∧
    ((t.timers u).status = .started → ((t.stopTimer o).timers u).status = .started) := by
  cases o with
  | none => exact ⟨rfl, rfl, fun h => ⟨h, nofun⟩, id⟩
  | some id' =>
    unfold Table.stopTimer
    by_cases ha : (t.timers id').status = .armed
    · simp only [ha, if_true]
      by_cases hu : u = id'
      · subst hu
        rw [update_self]
        exact ⟨rfl, rfl, nofun, fun hs => by rw [ha] at hs; cases hs⟩
      · rw [update_of_ne hu]
        exact ⟨rfl, rfl, fun h => ⟨h, fun he => hu (Option.some.inj he).symm⟩, id⟩
    · simp only [ha, if_false]
      refine ⟨trivial, trivial, fun h => ⟨h, fun he => ?_⟩, id⟩
      rw [Option.some.inj he] at ha
      exact ha h

theorem Table.nextTimer_stopTimer (t : Table V) (o : Option ℕ) :
    (t.stopTimer o).nextTimer = t.nextTimer := by
  unfold Table.stopTimer
  split
  · rfl
  · split <;> rfl

theorem Table.timers_unmap (t : Table V) (i : ℕ) :
    (t.unmap i).timers = t.timers ∧ (t.unmap i).nextTimer = t.nextTimer := by
  unfold Table.unmap
  split <;> exact ⟨rfl, rfl⟩

def Pc.naps : Pc V → Pc V → Bool
  | .lookup, .wakeCall _ | .slept _ _, .claimExpire _ _ | .slept _ _, .finished
  | .claimExpire _ _, .closeCall _ _ => true
  | _, _ => false

theorem Move.timers_calm {env : Env} {t t' : Table V} {pc pc' : Pc V} {evs : List Event}
    (hm : Move env t pc t' pc' evs) (hno : ¬ pc.ofReset) (hpc : pc.naps pc' = false) :
    t'.timers = t.timers ∧ t'.nextTimer = t.nextTimer ∧ t'.grace = t.grace := by
  cases hm with
  | wake | parkUnmapped | parkZero | parkGrace | expireEnforce | expireDispose => cases hpc
  | putFailed | abort =>
    exact ⟨(Table.timers_unmap ..).1, (Table.timers_unmap ..).2, (t.touches_endBusySlot ..).grace⟩
  | unmapClosed =>
    exact ⟨(Table.timers_unmap ..).1, (Table.timers_unmap ..).2, (t.touches_unmapLocked _).grace⟩
  | takeAll => exact absurd trivial hno
  | _ => exact ⟨rfl, rfl, rfl⟩

theorem Move.sleepFree {env : Env} {t t' : Table V} {pc pc' : Pc V} {evs : List Event}
    (hm : Move env t pc t' pc' evs) (hpc : pc.naps pc' = false) : ∀ e ∈ evs, e.sleepFree := by
  cases hm with
  | parkGrace | expireEnforce | expireDispose => cases hpc
  | dropStop | expireSkip | closeFinal => exact sleepFree_leave
  | @closed _ after _ =>
    intro e he
    rcases List.mem_cons.mp he with rfl | he
    · trivial
    · cases after with
      | unmap | reset => cases he
      | finish => exact sleepFree_leave e he
  | _ => simp [Event.sleepFree]

theorem Move.expires_of_naps {env : Env} {t t' : Table V} {pc pc' : Pc V} {evs : List Event}
    {i : ℕ} (hm : Move env t pc t' pc' evs) (hx : pc'.expires i) : pc.naps pc' = true := by
  cases hm with
  | parkUnmapped | parkZero => rfl
  | @closed _ after _ => cases after <;> exact hx.elim
  | _ => exact hx.elim

namespace GraceInv

variable {w : World V} {p : ℕ} {caller : Caller} {pc pc' : Pc V} {t : Table V}
  {evs : List Event} {i : ℕ} {L : ℕ → Prop}

theorem procs_back (hp : w.procs p = some ⟨caller, pc⟩) (hpc : ∀ i, ¬ pc'.expires i) {q : ℕ}
    {x : Proc V} (hq : (w.moved p caller t pc' evs).procs q = some x) :
    ∃ y, w.procs q = some y ∧ x.caller = y.caller ∧
      ∀ i, x.pc.expires i → q ≠ p ∧ y.pc.expires i := by
  rcases World.procs_moved_back hq with ⟨rfl, rfl⟩ | ⟨hqp, hq⟩
  · exact ⟨_, hp, rfl, fun i hi => absurd hi (hpc i)⟩
  · exact ⟨x, hq, rfl, fun i hi => ⟨hqp, hi⟩⟩

theorem still (h : GraceInv w) (hp : w.procs p = some ⟨caller, pc⟩)
    (hmap : MappedInv (w.moved p caller t pc' evs)) (hstill : Still L w.table t)
    (hL : ∀ q x j, q ≠ p → w.procs q = some x → x.pc.expires j → ¬ L j)
    (hpc : ∀ i, ¬ pc'.expires i) (hevs : ∀ e ∈ evs, ∀ i u d, e ≠ .asleep i u d)
    (hhonours : Precedes HonoursGrace (w.log ++ evs)) :
    GraceInv (w.moved p caller t pc' evs) := by
  refine ⟨hmap, hstill.grace.symm ▸ h.positive, fun u hu => ?_, fun q x i hq hx => ?_,
    fun q x u hq hx => ?_, fun q x q' x' u hq hq' hx hx' => ?_, fun i hi => ?_, hhonours⟩
  · obtain ⟨hu', hLu⟩ := hstill.armed u hu
    obtain ⟨hlt, hst, hg⟩ := h.armed u hu'
    show u < t.nextTimer ∧ (t.slots (t.timers u).slot).state = _ ∧
      (t.slots (t.timers u).slot).graceTimer = _
    rw [(hstill.timer u).2, hstill.nextTimer]
    exact ⟨hlt, (hstill.asleep _).mpr ⟨hst, hLu⟩, (hstill.under _ hst hLu).trans hg⟩
  · obtain ⟨y, hq, hc, hy⟩ := procs_back hp hpc hq
    obtain ⟨hqp, hy⟩ := hy i hx
    have hLi := hL q y i hqp hq hy
    obtain ⟨u, hu, hst, hg, hdue⟩ := h.expires q y i hq hy
    exact ⟨u, hc.trans hu, (hstill.asleep i).mpr ⟨hst, hLi⟩, (hstill.under i hst hLi).trans hg,
      (hstill.timer u).1.trans_le hdue⟩
  · obtain ⟨y, hq, hc, _⟩ := procs_back hp hpc hq
    obtain ⟨hlt, hst⟩ := h.fired q y u hq (hc.symm.trans hx)
    exact ⟨hstill.nextTimer ▸ hlt, hstill.started u hst⟩
  · obtain ⟨y, hq, hc, _⟩ := procs_back hp hpc hq
    obtain ⟨y', hq', hc', _⟩ := procs_back hp hpc hq'
    exact h.once q y q' y' u hq hq' (hc.symm.trans hx) (hc'.symm.trans hx')
  · obtain ⟨hst, hLi⟩ := (hstill.asleep i).mp hi
    obtain ⟨u, hlt, hg, hlast⟩ := h.asleep i hst
    refine ⟨u, hstill.nextTimer ▸ hlt, (hstill.under i hst hLi).trans hg, ?_⟩
    show lastSleep i (w.log ++ evs) = some (u, (t.timers u).due)
    rw [(hstill.timer u).1, lastSleep_of_other fun e he => hevs e he i]
    exact hlast

theorem claimed (h : GraceInv w) (hp : w.procs p = some ⟨caller, pc⟩) {c : Claim}
    (hc : pc.claim i = some c) : (w.table.slots i).state ≠ .asleep :=
  h.mapped.owners.not_resting hp hc .asleep

theorem calm (h : GraceInv w) (hp : w.procs p = some ⟨caller, pc⟩)
    (hm : Move (w.env p caller) w.table pc t pc' evs)
    (hmap : MappedInv (w.moved p caller t pc' evs)) (hpc : pc.naps pc' = false) :
    GraceInv (w.moved p caller t pc' evs) := by
  have hno := h.mapped.noReset p _ hp
  obtain ⟨htimers, hnext, hgrace⟩ := hm.timers_calm hno hpc
  refine h.still hp hmap (Still.quiet htimers hnext hgrace fun j => ?_) (fun _ _ _ _ _ _ => id)
    (fun i hx => ?_) (fun e he i u d hed => ?_) (h.honours.append fun e he pre i by' now hek => ?_)
  · have hslot := hm.slot j
    generalize t.slots j = s at hslot
    cases hslot with
    | same | held | released => exact .inl ⟨rfl, rfl⟩
    | reclaimed | settled | armed | enforced | disposed => cases hpc
    | registered hj | closer hj =>
      rw [hj, (h.mapped.owners.unmade (le_refl _)).1]
      exact .inr ⟨nofun, nofun⟩
    | put | failed | woken | broke | unmapped =>
      exact .inr ⟨nofun, h.claimed hp (if_pos rfl)⟩
    | claimed hs => exact .inr ⟨nofun, by rw [hs]; exact nofun⟩
    | cleared | reset => exact absurd trivial hno
  · rw [hm.expires_of_naps hx] at hpc
    cases hpc
  · have hf := hm.sleepFree hpc e he
    rw [hed] at hf
    exact hf
  · have hf := hm.sleepFree hpc e he
    rw [hek] at hf
    exact hf.elim

/-! ## Steps that start or end a sleep -/

theorem wakes (h : GraceInv w) {key : String} {ctx : ℕ} {polls : Bool} {inp : Input V}
    (hp : w.procs p = some ⟨.opener key ctx polls, .lookup⟩)
    (hmap : MappedInv (w.moved p (.opener key ctx polls) (w.table.reclaim i) (.wakeCall i)
      [.bind p i]))
    (hkey : w.table.items key = some i) (hs : (w.table.slots i).state = .asleep)
    (hstop : StopsInTime w (.run p inp)) :
    GraceInv (w.moved p (.opener key ctx polls) (w.table.reclaim i) (.wakeCall i)
      [.bind p i]) := by
  have hreclaims : w.reclaims (.run p inp) = some i := by
    simp only [World.reclaims, hp, hkey, hs, if_true]
  have htimers := w.table.timers_stopTimer (w.table.slots i).graceTimer
  refine h.still hp hmap (Still.touch (w.table.touches_reclaim i)
    (fun u => ⟨(htimers u).1, (htimers u).2.1⟩) (fun u hu => ?_) (fun u => (htimers u).2.2.2)
    (w.table.nextTimer_stopTimer _) nofun) (fun q x j _ hq hx hj => ?_) (fun _ => id) (by simp)
    (h.honours.snoc nofun)
  · obtain ⟨harmed, hne⟩ := (htimers u).2.2.1 hu
    refine ⟨harmed, fun hslot => hne ?_⟩
    rw [← hslot]
    exact (h.armed u harmed).2.2
  · subst hj
    obtain ⟨u, hc, _⟩ := h.expires q x j hq hx
    have hlt : q < w.next := by
      by_contra hge
      rw [h.mapped.owners.unborn q (Nat.not_lt.mp hge)] at hq
      cases hq
    have hfalse := hstop j hreclaims q hlt
    obtain ⟨c, pc⟩ := x
    subst hc
    cases pc with
    | claimExpire i' err =>
      obtain rfl : j = i' := hx
      simp only [World.callbackOf, hq, beq_self_eq_true] at hfalse
      cases hfalse
    | _ => exact hx.elim

theorem expire (h : GraceInv w) {err : Option OpenError}
    (hp : w.procs p = some ⟨caller, .claimExpire i err⟩)
    (hmap : MappedInv (w.moved p caller t pc' [.expired i caller.timer w.now])) {s : Slot V}
    (ht : w.table.Touches i s t) (htimers : t.timers = w.table.timers)
    (hnext : t.nextTimer = w.table.nextTimer) (hs : s.state ≠ .asleep)
    (hpc : ∀ i, ¬ pc'.expires i) :
    GraceInv (w.moved p caller t pc' [.expired i caller.timer w.now]) := by
  obtain ⟨u, hc, hst, hg, hdue⟩ := h.expires p _ i hp rfl
  have hc' : caller = .grace u := hc
  refine h.still hp hmap (Still.touch ht ?_ ?_ ?_ hnext hs) (fun q x j hqp hq hx hj => ?_) hpc
    (by simp) (h.honours.snoc ?_)
  · rw [htimers]
    exact fun _ => ⟨rfl, rfl⟩
  · rw [htimers]
    intro v hv
    refine ⟨hv, fun hslot => ?_⟩
    -- An armed timer of the slot would be the one that has started.
    have hgv := (h.armed v hv).2.2
    rw [hslot, hg] at hgv
    rw [← Option.some.inj hgv, (h.fired p _ u hp hc).2] at hv
    cases hv
  · rw [htimers]
    exact fun _ => id
  · subst hj
    obtain ⟨v, hcv, _, hgv, _⟩ := h.expires q x j hq hx
    rw [hg] at hgv
    obtain rfl := Option.some.inj hgv
    exact hqp (h.once q x p _ u hq hp hcv hc)
  · intro i' by' now he
    injection he with hi hby hnow
    subst hi hby hnow
    obtain ⟨v, _, hgv, hlast⟩ := h.asleep i hst
    rw [hg] at hgv
    obtain rfl := Option.some.inj hgv
    exact ⟨u, _, hlast, by rw [hc']; rfl, hdue⟩

theorem parks (h : GraceInv w) {err : Option OpenError} {s : Slot V} {due : ℕ}
    (hp : w.procs p = some ⟨caller, .slept i err⟩) (ht : w.table.Touches i s t)
    (hg : s.graceTimer = some w.table.nextTimer) (hnext : t.nextTimer = w.table.nextTimer + 1)
    (htimers : t.timers = update w.table.timers w.table.nextTimer ⟨i, due, .armed⟩)
    (hs : s.state = .asleep)
    (hmap : MappedInv (w.moved p caller t .finished
      (.asleep i w.table.nextTimer due :: leave p err))) :
    GraceInv (w.moved p caller t .finished (.asleep i w.table.nextTimer due :: leave p err)) := by
  have hnot : (w.table.slots i).state ≠ .asleep := h.claimed hp (if_pos rfl)
  have hself : t.slots i = s := by rw [ht.slots, update_self]
  have hother : ∀ {j}, j ≠ i → t.slots j = w.table.slots j := by
    intro j hj
    rw [ht.slots, update_of_ne hj]
  have hnew : t.timers w.table.nextTimer = ⟨i, due, .armed⟩ := by
    rw [htimers, update_self]
  have htimer : ∀ {u}, u ≠ w.table.nextTimer → t.timers u = w.table.timers u := by
    intro u hu
    rw [htimers, update_of_ne hu]
  have hlast : ∀ j, lastSleep j (w.log ++ .asleep i w.table.nextTimer due :: leave p err) =
      if i = j then some (w.table.nextTimer, due) else lastSleep j w.log := by
    intro j
    rw [List.append_cons, lastSleep_of_other fun e he u d hed => by
      have hf := sleepFree_leave e he
      rw [hed] at hf
      exact hf, lastSleep_append]
    rfl
  refine ⟨hmap, ht.grace.symm ▸ h.positive, fun u hu => ?_, fun q x j hq hx => ?_,
    fun q x u hq hx => ?_, fun q x q' x' u hq hq' hx hx' => ?_, fun j hj => ?_, ?_⟩
  · show u < t.nextTimer ∧ (t.slots (t.timers u).slot).state = _ ∧
      (t.slots (t.timers u).slot).graceTimer = _
    have hu' : (t.timers u).status = .armed := hu
    rw [hnext]
    by_cases hun : u = w.table.nextTimer
    · rw [hun, hnew, hself]
      exact ⟨Nat.lt_succ_self _, hs, hg⟩
    · rw [htimer hun] at hu' ⊢
      obtain ⟨hlt, hst, hgu⟩ := h.armed u hu'
      rw [hother fun he => hnot (he ▸ hst)]
      exact ⟨Nat.lt_succ_of_lt hlt, hst, hgu⟩
  · obtain ⟨y, hq, hc, hy⟩ := procs_back hp (fun _ => id) hq
    obtain ⟨u, hu, hst, hgu, hdue⟩ := h.expires q y j hq (hy j hx).2
    have hun := (h.fired q y u hq hu).1.ne
    refine ⟨u, hc.trans hu, ?_⟩
    show (t.slots j).state = _ ∧ (t.slots j).graceTimer = _ ∧ (t.timers u).due ≤ w.now
    rw [hother fun he => hnot (he ▸ hst), htimer hun]
    exact ⟨hst, hgu, hdue⟩
  · obtain ⟨y, hq, hc, _⟩ := procs_back hp (fun _ => id) hq
    obtain ⟨hlt, hst⟩ := h.fired q y u hq (hc.symm.trans hx)
    show u < t.nextTimer ∧ (t.timers u).status = _
    rw [hnext, htimer hlt.ne]
    exact ⟨Nat.lt_succ_of_lt hlt, hst⟩
  · obtain ⟨y, hq, hc, _⟩ := procs_back hp (fun _ => id) hq
    obtain ⟨y', hq', hc', _⟩ := procs_back hp (fun _ => id) hq'
    exact h.once q y q' y' u hq hq' (hc.symm.trans hx) (hc'.symm.trans hx')
  · have hj' : (t.slots j).state = .asleep := hj
    show ∃ u, u < t.nextTimer ∧ (t.slots j).graceTimer = some u ∧
      lastSleep j (w.log ++ _) = some (u, (t.timers u).due)
    rw [hlast, hnext]
    by_cases hji : j = i
    · subst hji
      exact ⟨w.table.nextTimer, Nat.lt_succ_self _, by rw [hself, hg],
        by rw [if_pos rfl, hnew]⟩
    · rw [hother hji] at hj' ⊢
      obtain ⟨u, hlt, hgu, hl⟩ := h.asleep j hj'
      exact ⟨u, Nat.lt_succ_of_lt hlt, hgu, by rw [if_neg (Ne.symm hji), htimer hlt.ne, hl]⟩
  · refine h.honours.append fun e he pre i' by' now hek => ?_
    rcases List.mem_cons.mp he with rfl | he
    · cases hek
    · have hf := sleepFree_leave e he
      rw [hek] at hf
      exact hf.elim

theorem move (h : GraceInv w) (hp : w.procs p = some ⟨caller, pc⟩) {inp : Input V}
    (hm : Move (w.env p caller) w.table pc t pc' evs)
    (hmap : MappedInv (w.moved p caller t pc' evs)) (hstop : StopsInTime w (.run p inp)) :
    GraceInv (w.moved p caller t pc' evs) := by
  by_cases hpc : pc.naps pc' = false
  · exact h.calm hp hm hmap hpc
  cases hm with
  | wake hc hkey hs =>
    obtain rfl : caller = _ := hc
    exact h.wakes hp hmap hkey hs hstop
  | parkUnmapped _ hunm => exact absurd (h.mapped.busy hp (if_pos rfl)) hunm
  | parkZero _ hg => exact absurd hg h.positive
  | parkGrace => exact h.parks hp (w.table.touches_armGrace ..) rfl rfl rfl rfl hmap
  | expireEnforce =>
    exact h.expire hp hmap (w.table.touches_enterBusy _) rfl rfl nofun fun _ => id
  | expireDispose =>
    exact h.expire hp hmap ((w.table.touches_endSlot _).unmap _) (Table.timers_unmap ..).1
      (Table.timers_unmap ..).2 nofun fun _ => id
  | _ => exact absurd rfl hpc

/-! ## Whole runs -/

theorem of_ne_zero {grace : ℤ} (hpos : (Table.new (V := V) grace).grace ≠ 0) :
    GraceInv (World.init (V := V) grace) := by
  refine ⟨.init grace, hpos, fun t ht => ?_, fun p q i hq => ?_, fun p q t hq => ?_,
    fun p q p' q' t hq => ?_, fun i hi => ?_, Precedes.nil⟩
  · cases ht
  · cases hq
  · cases hq
  · cases hq
  · cases hi

theorem init {grace : ℤ} (hgrace : 0 < grace) : GraceInv (World.init (V := V) grace) := by
  have hnew : (Table.new (V := V) grace).grace = grace.toNat := if_neg (by omega)
  exact .of_ne_zero (by omega)

theorem fires (h : GraceInv w) {u : ℕ} (harmed : (w.table.timers u).status = .armed)
    (hdue : (w.table.timers u).due ≤ w.now)
    (hmap : MappedInv ((w.fired u).spawn (.grace u)
      (.claimExpire (w.table.timers u).slot none))) :
    GraceInv ((w.fired u).spawn (.grace u) (.claimExpire (w.table.timers u).slot none)) := by
  obtain ⟨hlt, hst, hg⟩ := h.armed u harmed
  have hback : ∀ {q x}, ((w.fired u).spawn (.grace u)
      (.claimExpire (w.table.timers u).slot none)).procs q = some x →
      q = w.next ∧ x = ⟨.grace u, .claimExpire (w.table.timers u).slot none⟩ ∨
      q ≠ w.next ∧ w.procs q = some x := Lib.update_eq_some
  have hself : (w.fired u).table.timers u = { w.table.timers u with status := .started } :=
    update_self ..
  have hother : ∀ {v}, v ≠ u → (w.fired u).table.timers v = w.table.timers v :=
    fun hv => update_of_ne hv ..
  have hsame : ∀ v, ((w.fired u).table.timers v).due = (w.table.timers v).due ∧
      ((w.fired u).table.timers v).slot = (w.table.timers v).slot := by
    intro v
    by_cases hv : v = u
    · rw [hv, hself]
      exact ⟨rfl, rfl⟩
    · rw [hother hv]
      exact ⟨rfl, rfl⟩
  -- The timer was armed, so no process is its callback yet.
  have hfresh : ∀ {q x}, w.procs q = some x → x.caller ≠ .grace u := by
    intro q x hq hc
    have hst := (h.fired q x u hq hc).2
    rw [harmed] at hst
    cases hst
  refine ⟨hmap, h.positive, fun v hv => ?_, fun q x i hq hx => ?_, fun q x v hq hx => ?_,
    fun q x q' x' v hq hq' hx hx' => ?_, fun i hi => ?_, h.honours⟩
  · have hv' : ((w.fired u).table.timers v).status = .armed := hv
    have hvu : v ≠ u := by
      rintro rfl
      rw [hself] at hv'
      cases hv'
    rw [hother hvu] at hv'
    show v < w.table.nextTimer ∧ (w.table.slots ((w.fired u).table.timers v).slot).state = _ ∧
      (w.table.slots ((w.fired u).table.timers v).slot).graceTimer = _
    rw [hother hvu]
    exact h.armed v hv'
  · rcases hback hq with ⟨_, rfl⟩ | ⟨_, hq⟩
    · obtain rfl : i = _ := hx
      exact ⟨u, rfl, hst, hg, (hsame u).1.trans_le hdue⟩
    · obtain ⟨v, hv, hsv, hgv, hdv⟩ := h.expires q x i hq hx
      exact ⟨v, hv, hsv, hgv, (hsame v).1.trans_le hdv⟩
  · rcases hback hq with ⟨_, rfl⟩ | ⟨_, hq⟩
    · injection hx with hx
      subst hx
      exact ⟨hlt, congrArg GraceTimer.status hself⟩
    · obtain ⟨hlv, hsv⟩ := h.fired q x v hq hx
      have hvu : v ≠ u := fun he => hfresh hq (he ▸ hx)
      exact ⟨hlv, (congrArg GraceTimer.status (hother hvu)).trans hsv⟩
  · rcases hback hq with ⟨hn, rfl⟩ | ⟨_, hq⟩
    · injection hx with hx
      subst hx
      rcases hback hq' with ⟨hn', _⟩ | ⟨_, hq'⟩
      · rw [hn, hn']
      · exact absurd hx' (hfresh hq')
    · rcases hback hq' with ⟨_, rfl⟩ | ⟨_, hq'⟩
      · injection hx' with hx'
        exact absurd hx (hx' ▸ hfresh hq)
      · exact h.once q x q' x' v hq hq' hx hx'
  · obtain ⟨v, hlv, hgv, hlast⟩ := h.asleep i hi
    refine ⟨v, hlv, hgv, hlast.trans ?_⟩
    rw [← (hsame v).1]
    rfl

theorem spawned (h : GraceInv w) (hmap : MappedInv (w.spawn caller pc))
    (hc : ∀ u, caller ≠ .grace u) (hpc : ∀ i, ¬ pc.expires i) :
    GraceInv (w.spawn caller pc) := by
  have hback : ∀ {q x}, (w.spawn caller pc).procs q = some x →
      x = ⟨caller, pc⟩ ∨ w.procs q = some x := World.procs_update_back
  refine ⟨hmap, h.positive, h.armed, fun q x i hq hx => ?_, fun q x v hq hx => ?_,
    fun q x q' x' v hq hq' hx hx' => ?_, h.asleep, h.honours⟩
  · rcases hback hq with rfl | hq
    · exact absurd hx (hpc i)
    · exact h.expires q x i hq hx
  · rcases hback hq with rfl | hq
    · exact absurd hx (hc v)
    · exact h.fired q x v hq hx
  · rcases hback hq with rfl | hq
    · exact absurd hx (hc v)
    · rcases hback hq' with rfl | hq'
      · exact absurd hx' (hc v)
      · exact h.once q x q' x' v hq hq' hx hx'

theorem step {w' : World V} {a : Action V} (h : GraceInv w)
    (ha : StopsInTime w a ∧ a.isReset = false) (hs : w.step a = some w') : GraceInv w' := by
  have hmap := h.mapped.step ha.2 hs
  cases World.step_cases hs with
  | openKey => exact h.spawned hmap nofun fun _ => id
  | @cancel ctx err _ =>
    refine ⟨hmap, h.positive, h.armed, h.expires, h.fired, h.once, fun i hi => ?_,
      h.honours.snoc nofun⟩
    obtain ⟨u, hlt, hg, hlast⟩ := h.asleep i hi
    exact ⟨u, hlt, hg, (lastSleep_of_other (by simp)).trans hlast⟩
  | reset => cases ha.2
  | @tick elapsed =>
    refine ⟨hmap, h.positive, h.armed, fun q x i hq hx => ?_, h.fired, h.once, h.asleep,
      h.honours⟩
    obtain ⟨u, hu, hst, hg, hdue⟩ := h.expires q x i hq hx
    exact ⟨u, hu, hst, hg, hdue.trans (Nat.le_add_right _ _)⟩
  | fire harmed hdue => exact h.fires harmed hdue hmap
  | run hp hm => exact h.move hp hm hmap ha.1

end GraceInv

/-- In a run in which no Open takes a value back under a started callback, a
sleep ends only by its own timer and once its own grace is over. -/
theorem grace_honoured {grace : ℤ} (hgrace : 0 < grace) {acts : List (Action V)} {w : World V}
    (hacts : ∀ a ∈ acts, a.isReset = false)
    (hstop : Along World.step StopsInTime (World.init grace) acts)
    (hrun : run World.step (World.init grace) acts = some w) :
    Precedes HonoursGrace w.log := by
  have hinv : GraceInv w := run_inv_along (fun _ _ _ h ha hs => h.step ha hs)
    (hstop.and_forall hacts) (.init hgrace) hrun
  exact hinv.honours

/-- A value is opened, dropped and left asleep; five nanoseconds later its
timer is due and the callback starts. -/
def sleepAndFire : List (Action Unit) :=
  createFor 0 0 "key" () Hooks.none ++ dropFor 0 0 ++ steps 0 2 ++ [Action.tick 5, .fire 0]

theorem grace_honoured_oneSleep : ∃ w : World Unit,
    run World.step (World.init 5) (sleepAndFire ++ steps 1 1) = some w ∧
    .expired 0 (some 0) 5 ∈ w.log ∧ Precedes HonoursGrace w.log :=
  ⟨_, rfl, by decide +kernel,
    @grace_honoured Unit 5 (by decide) (sleepAndFire ++ steps 1 1) _ (by decide) (by decide +kernel)
      rfl⟩

/-- The callback is held up before `claimExpire`. A second Open takes the
value back and drops it, and the callback ends the new sleep at once. -/
def staleCallback : List (Action Unit) :=
  sleepAndFire ++ [Action.openKey "key" 1 false] ++ steps 2 6 ++ dropFor 2 1 ++ steps 2 2 ++
    steps 1 1

/-- The callback of the first sleep ends the second one before its grace. -/
theorem stale_callback_expires : ∃ w : World Unit,
    run World.step (World.init 5) staleCallback = some w ∧
    (∀ a ∈ staleCallback, a.isReset = false) ∧ .asleep 0 1 10 ∈ w.log ∧
    .expired 0 (some 0) 5 ∈ w.log ∧ ¬ Precedes HonoursGrace w.log := by
  refine ⟨_, rfl, by decide, by decide +kernel, by decide +kernel, fun h => ?_⟩
  obtain ⟨timer, due, hlast, hby, _⟩ := h _ (.expired 0 (some 0) 5) [] rfl 0 (some 0) 5 rfl
  obtain rfl := Option.some.inj hby
  have hfirst : (lastSleep 0 _).map Prod.fst = some 0 := congrArg (Option.map Prod.fst) hlast
  exact absurd hfirst (by decide +kernel)

end MiddlewareUtils.Reclaim
