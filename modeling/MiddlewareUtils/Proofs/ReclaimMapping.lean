import MiddlewareUtils.Proofs.ReclaimOwners

/-!
# The map while nobody resets

Without Reset the map and the slots agree: a key maps to a slot that has
not ended, and a slot that has not ended is what its key maps to. The one
exception is a slot put to sleep under zero grace without the
close-before-open order, which `parkAsleep` unmaps on the way to its own
`claimExpire`.

`Mapping` is about the table alone. Each lock-held function keeps it, given
the state ownership says the slot is in.
-/

namespace MiddlewareUtils.Reclaim

open Lib Function

variable {V : Type}

def Pc.ofReset : Pc V → Prop
  | takeAll | resetNext _ | resetSleepCall _ _ | resetSleepRun _ _ => True
  | closeCall _ (.reset _) | closeRun _ (.reset _) => True
  | _ => False

def Action.isReset : Action V → Bool
  | reset => true
  | _ => false

def Table.Unkept (t : Table V) (s : Slot V) : Prop :=
  s.state = .asleep ∧ t.grace = 0 ∧ s.hooks.enforceCloseBeforeOpen = false

structure Mapping (t : Table V) : Prop where
  keyed : ∀ k i, t.items k = some i → i < t.nextSlot ∧ (t.slots i).key = k
  live : ∀ k i, t.items k = some i → (t.slots i).state ≠ .gone
  mapped : ∀ i, (t.slots i).state ≠ .gone →
    t.items (t.slots i).key = some i ∨ t.Unkept (t.slots i)

namespace Mapping

variable {t t' : Table V} {i : ℕ} {s : Slot V}

theorem of_busy (h : Mapping t) (hs : (t.slots i).state = .busy) :
    t.items (t.slots i).key = some i := by
  rcases h.mapped i (by rw [hs]; exact nofun) with hm | hu
  · exact hm
  · rw [hu.1] at hs
    cases hs

theorem of_awake (h : Mapping t) (hs : (t.slots i).state = .awake) :
    t.items (t.slots i).key = some i := by
  rcases h.mapped i (by rw [hs]; exact nofun) with hm | hu
  · exact hm
  · rw [hu.1] at hs
    cases hs

theorem touch (h : Mapping t) (ht : t.Touches i s t') (hitems : t'.items = t.items)
    (hkey : s.key = (t.slots i).key) (hmap : t.items (t.slots i).key = some i)
    (hs : s.state ≠ .gone) : Mapping t' := by
  have hslot : ∀ j, (j = i ∧ t'.slots j = s) ∨ (j ≠ i ∧ t'.slots j = t.slots j) := by
    intro j
    rw [ht.slots]
    by_cases hj : j = i
    · subst hj
      exact .inl ⟨rfl, update_self ..⟩
    · exact .inr ⟨hj, update_of_ne hj ..⟩
  refine ⟨fun k j hk => ?_, fun k j hk => ?_, fun j hj => ?_⟩
  · rw [hitems] at hk
    rw [ht.nextSlot]
    refine ⟨(h.keyed k j hk).1, ?_⟩
    rcases hslot j with ⟨rfl, he⟩ | ⟨_, he⟩
    · rw [he, hkey]
      exact (h.keyed k j hk).2
    · rw [he]
      exact (h.keyed k j hk).2
  · rw [hitems] at hk
    rcases hslot j with ⟨rfl, he⟩ | ⟨_, he⟩
    · rw [he]
      exact hs
    · rw [he]
      exact h.live k j hk
  · rw [hitems]
    rcases hslot j with ⟨rfl, he⟩ | ⟨_, he⟩
    · rw [he, hkey]
      exact .inl hmap
    · rw [he] at hj ⊢
      unfold Table.Unkept
      rw [ht.grace]
      exact h.mapped j hj

theorem same (h : Mapping t) (ht : t.Touches i s t') (hitems : t'.items = t.items)
    (hkey : s.key = (t.slots i).key) (hst : s.state = (t.slots i).state)
    (hhooks : s.hooks = (t.slots i).hooks) : Mapping t' := by
  have hslot : ∀ j, (t'.slots j).key = (t.slots j).key ∧ (t'.slots j).state = (t.slots j).state ∧
      (t'.slots j).hooks = (t.slots j).hooks := by
    intro j
    rw [ht.slots]
    by_cases hj : j = i
    · subst hj
      rw [update_self]
      exact ⟨hkey, hst, hhooks⟩
    · rw [update_of_ne hj]
      exact ⟨rfl, rfl, rfl⟩
  refine ⟨fun k j hk => ?_, fun k j hk => ?_, fun j hj => ?_⟩
  · rw [hitems] at hk
    rw [ht.nextSlot, (hslot j).1]
    exact h.keyed k j hk
  · rw [hitems] at hk
    rw [(hslot j).2.1]
    exact h.live k j hk
  · rw [(hslot j).2.1] at hj
    unfold Table.Unkept
    rw [hitems, ht.grace, (hslot j).1, (hslot j).2.1, (hslot j).2.2]
    exact h.mapped j hj

theorem leaves (h : Mapping t) (ht : t.Touches i s t')
    (hitems : ∀ k, t'.items k = if t.items k = some i then none else t.items k)
    (hs : s.state = .gone ∨ t.Unkept s) : Mapping t' := by
  have hother : ∀ k j, t'.items k = some j → t.items k = some j ∧ j ≠ i := by
    intro k j hk
    rw [hitems] at hk
    split at hk
    · cases hk
    next hki => exact ⟨hk, fun hj => hki (hj ▸ hk)⟩
  have hslot : ∀ j, j ≠ i → t'.slots j = t.slots j := by
    intro j hj
    rw [ht.slots]
    exact update_of_ne hj ..
  refine ⟨fun k j hk => ?_, fun k j hk => ?_, fun j hj => ?_⟩
  · obtain ⟨hk, hj⟩ := hother k j hk
    rw [hslot j hj, ht.nextSlot]
    exact h.keyed k j hk
  · obtain ⟨hk, hj⟩ := hother k j hk
    rw [hslot j hj]
    exact h.live k j hk
  · unfold Table.Unkept
    rw [ht.grace]
    by_cases hji : j = i
    · subst hji
      rw [ht.slots, update_self] at hj ⊢
      exact .inr (hs.resolve_left hj)
    · rw [hslot j hji] at hj ⊢
      refine (h.mapped j hj).imp (fun hm => ?_) id
      rw [hitems, hm, if_neg fun he => hji (Option.some.inj he)]

theorem items_forget (h : Mapping t) (hmap : t.items (t.slots i).key = some i) (k : String) :
    update t.items (t.slots i).key none k =
      if t.items k = some i then none else t.items k := by
  by_cases hk : k = (t.slots i).key
  · subst hk
    rw [update_self, if_pos hmap]
  · rw [update_of_ne hk, if_neg fun hki => hk (h.keyed k i hki).2.symm]

theorem items_unmap (h : Mapping t) (ht : t.Touches i s t') (hitems : t'.items = t.items)
    (hkey : s.key = (t.slots i).key) (k : String) :
    (t'.unmap i).items k = if t.items k = some i then none else t.items k := by
  have hself : (t'.slots i).key = (t.slots i).key := by
    rw [ht.slots, update_self, hkey]
  unfold Table.unmap
  rw [hself, hitems]
  split
  next hmap => exact h.items_forget hmap k
  next hmap =>
    rw [hitems, if_neg]
    intro hk
    rw [(h.keyed k i hk).2] at hmap
    exact hmap hk

theorem newcomer (h : Mapping t) {key : String} (hgrace : t'.grace = t.grace)
    (hnext : t'.nextSlot = t.nextSlot + 1)
    (hitems : t'.items = update t.items key (some t.nextSlot))
    (hnew : (t'.slots t.nextSlot).key = key ∧ (t'.slots t.nextSlot).state = .busy)
    (hold : ∀ j, j < t.nextSlot → t.items key ≠ some j → t'.slots j = t.slots j)
    (hend : ∀ j, t.items key = some j → (t'.slots j).state = .gone)
    (hunmade : ∀ j, t.nextSlot < j → (t'.slots j).state = .gone) : Mapping t' := by
  have hother : ∀ k j, t'.items k = some j →
      (k = key ∧ j = t.nextSlot) ∨ (t.items k = some j ∧ t'.slots j = t.slots j) := by
    intro k j hk
    rw [hitems] at hk
    by_cases hkey : k = key
    · rw [hkey, update_self] at hk
      exact .inl ⟨hkey, (Option.some.inj hk).symm⟩
    · rw [update_of_ne hkey] at hk
      obtain ⟨hlt, hj⟩ := h.keyed k j hk
      refine .inr ⟨hk, hold j hlt fun hkj => hkey ?_⟩
      rw [← hj, (h.keyed key j hkj).2]
  refine ⟨fun k j hk => ?_, fun k j hk => ?_, fun j hj => ?_⟩
  · rw [hnext]
    rcases hother k j hk with ⟨rfl, rfl⟩ | ⟨hk, hj⟩
    · exact ⟨Nat.lt_succ_self _, hnew.1⟩
    · rw [hj]
      exact ⟨Nat.lt_succ_of_lt (h.keyed k j hk).1, (h.keyed k j hk).2⟩
  · rcases hother k j hk with ⟨rfl, rfl⟩ | ⟨hk, hj⟩
    · rw [hnew.2]
      exact nofun
    · rw [hj]
      exact h.live k j hk
  · unfold Table.Unkept
    rw [hgrace, hitems]
    rcases lt_trichotomy j t.nextSlot with hlt | rfl | hgt
    · have hkj : t.items key ≠ some j := fun hkj => hj (hend j hkj)
      rw [hold j hlt hkj] at hj ⊢
      refine (h.mapped j hj).imp (fun hm => ?_) id
      have hne : (t.slots j).key ≠ key := by
        intro he
        rw [he] at hm
        exact hkj hm
      rw [update_of_ne hne]
      exact hm
    · rw [hnew.1]
      exact .inl (update_self ..)
    · exact absurd (hunmade j hgt) hj

end Mapping

/-! ## Steps and runs without Reset -/

structure MappedInv (w : World V) : Prop where
  owners : OwnersInv w
  noReset : ∀ p q, w.procs p = some q → ¬ q.pc.ofReset
  mapping : Mapping w.table

namespace MappedInv

variable {w : World V} {p : ℕ} {caller : Caller} {pc pc' : Pc V} {t : Table V}
  {evs : List Event} {i : ℕ}

theorem busy (h : MappedInv w) (hp : w.procs p = some ⟨caller, pc⟩) {phs : List Phase}
    (hc : pc.claim i = some ⟨.busy, phs⟩) : w.table.items (w.table.slots i).key = some i :=
  h.mapping.of_busy (h.owners.meets hp hc).1

theorem enforced (h : MappedInv w) (hs : (w.table.slots i).state = .asleep)
    (henf : (w.table.slots i).hooks.enforceCloseBeforeOpen = true) :
    w.table.items (w.table.slots i).key = some i := by
  rcases h.mapping.mapped i (by rw [hs]; exact nofun) with hm | hu
  · exact hm
  · rw [hu.2.2] at henf
    cases henf

theorem mapping_move (h : MappedInv w) (hp : w.procs p = some ⟨caller, pc⟩)
    (hm : Move (w.env p caller) w.table pc t pc' evs) : Mapping t := by
  have hno := h.noReset p _ hp
  cases hm with
  | create _ hkey =>
    refine h.mapping.newcomer rfl rfl rfl ?_ (fun j hj _ => update_of_ne hj.ne ..)
      (fun j hj => by rw [hkey] at hj; cases hj) fun j hj => ?_
    · rw [show (w.table.register _).slots w.table.nextSlot = _ from update_self ..]
      exact ⟨rfl, rfl⟩
    · rw [show (w.table.register _).slots j = _ from update_of_ne hj.ne' ..]
      exact (h.owners.unmade hj.le).1
  | bind _ _ _ => exact h.mapping.same (w.table.touches_hold _) rfl rfl rfl rfl
  | wake _ hkey _ =>
    have hk := (h.mapping.keyed _ _ hkey).2
    exact h.mapping.touch (w.table.touches_reclaim _) (w.table.items_stopTimer _) rfl
      (by rw [hk]; exact hkey) nofun
  | retry _ hkey hs => exact absurd hs (h.mapping.live _ _ hkey)
  | put =>
    have hbusy := h.busy hp (if_pos rfl)
    refine h.mapping.touch (w.table.touches_publishPut ..) ?_ rfl hbusy nofun
    show update w.table.items _ _ = _
    rw [← hbusy, update_eq_self]
  | putFailed | abort =>
    exact h.mapping.leaves (w.table.touches_endBusySlot ..)
      (h.mapping.items_unmap (w.table.touches_endWith ..) rfl rfl) (Or.inl rfl)
  | publishWake =>
    exact h.mapping.touch (w.table.touches_publishWake _) rfl rfl (h.busy hp (if_pos rfl)) nofun
  | release => exact h.mapping.same (w.table.touches_releaseHolder _) rfl rfl rfl rfl
  | dropClaim _ hs =>
    exact h.mapping.touch (w.table.touches_enterBusy _) rfl rfl (h.mapping.of_awake hs) nofun
  | parkUnmapped _ hunm => exact absurd (h.busy hp (if_pos rfl)) hunm
  | parkZero henf hg hmap =>
    have ht := w.table.touches_settleAsleep
    exact h.mapping.leaves ⟨(ht _).slots, rfl, rfl⟩ (h.mapping.items_forget hmap)
      (Or.inr ⟨rfl, hg, henf⟩)
  | parkGrace _ hmap =>
    exact h.mapping.touch (w.table.touches_armGrace ..) rfl rfl hmap nofun
  | swap =>
    have hbusy := h.busy hp claim_panicked
    have hlt := (h.mapping.keyed _ _ hbusy).1
    refine h.mapping.newcomer rfl rfl rfl ?_ (fun j hj hne => ?_) (fun j hj => ?_) fun j hj => ?_
    · rw [show (w.table.installCloser _ _).slots w.table.nextSlot = _ from
        update_self ..]
      exact ⟨rfl, rfl⟩
    · refine (update_of_ne hj.ne ..).trans (update_of_ne ?_ ..)
      rintro rfl
      exact hne hbusy
    · obtain rfl := Option.some.inj (hbusy.symm.trans hj)
      rw [show (w.table.installCloser _ _).slots _ = _ from
        (update_of_ne hlt.ne ..).trans (update_self ..)]
    · rw [show (w.table.installCloser _ _).slots j = _ from
        (update_of_ne hj.ne' ..).trans (update_of_ne (by omega) ..)]
      exact (h.owners.unmade hj.le).1
  | closeReady | closeFinal => exact h.mapping.same (w.table.touches_closeChan 0 _) rfl rfl rfl rfl
  | expireEnforce hs _ henf =>
    exact h.mapping.touch (w.table.touches_enterBusy _) rfl rfl (h.enforced hs henf) nofun
  | expireDispose =>
    exact h.mapping.leaves ((w.table.touches_endSlot _).unmap _)
      (h.mapping.items_unmap (w.table.touches_endSlot _) rfl rfl) (Or.inl rfl)
  | unmapClosed =>
    exact h.mapping.leaves (w.table.touches_unmapLocked _)
      (h.mapping.items_unmap (w.table.touches_self _) rfl rfl) (Or.inl rfl)
  | takeAll | resetAwake | resetAsleep => exact absurd trivial hno
  | _ => exact h.mapping

theorem noReset_move (hno : ¬ pc.ofReset) {env : Env} {t₀ : Table V}
    (hm : Move env t₀ pc t pc' evs) : ¬ pc'.ofReset := by
  cases hm with
  | @closed _ after _ =>
    cases after with
    | reset => exact absurd trivial hno
    | unmap | finish => exact id
  | @closeStart _ after =>
    cases after with
    | reset => exact absurd trivial hno
    | unmap | finish => exact id
  | takeAll | resetSkip | resetAwake | resetAsleep | resetSleepStart | resetSlept =>
    exact absurd trivial hno
  | _ => exact id

theorem init (grace : ℤ) : MappedInv (World.init (V := V) grace) where
  owners := .init grace
  noReset := fun _ _ hp => absurd hp World.procs_init
  mapping := ⟨nofun, nofun, fun _ h => absurd rfl h⟩

theorem step {w' : World V} {a : Action V} (h : MappedInv w) (ha : a.isReset = false)
    (hs : w.step a = some w') : MappedInv w' := by
  have ho := h.owners.step hs
  have hproc : ∀ {n : ℕ} {x : Proc V}, ¬ x.pc.ofReset → ∀ p q,
      update w.procs n (some x) p = some q → ¬ q.pc.ofReset := by
    intro n x hx p q hq
    rcases World.procs_update_back hq with rfl | hq
    · exact hx
    · exact h.noReset p q hq
  cases World.step_cases hs with
  | openKey => exact ⟨ho, hproc id, h.mapping⟩
  | cancel | tick => exact ⟨ho, h.noReset, h.mapping⟩
  | reset => cases ha
  | fire => exact ⟨ho, hproc id, ⟨h.mapping.keyed, h.mapping.live, h.mapping.mapped⟩⟩
  | run hp hm =>
    exact ⟨ho, hproc (noReset_move (h.noReset _ _ hp) hm), h.mapping_move hp hm⟩

end MappedInv

end MiddlewareUtils.Reclaim
