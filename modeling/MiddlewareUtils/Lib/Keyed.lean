import Mathlib.Data.List.AList
import Mathlib.Data.Finset.Card

/-!
# Finite maps, swept and counted

A Go map is an `AList`: entries under pairwise different keys, in an order
nothing may depend on. Mathlib has lookup, insert and erase; a sweep that
deletes the entries failing a test, as `for … range … delete` writes it, the
number of entries, the sweep that also makes room below a cap, and the map
that holds every value in another representation are added here.
-/

namespace MiddlewareUtils.Lib

variable {α β : Type*}

/-- The entries passing the test. -/
def keep (p : β → Bool) (m : AList fun _ : α => β) : AList fun _ : α => β where
  entries := m.entries.filter fun e => p e.2
  nodupKeys := m.nodupKeys.sublist List.filter_sublist

/-- How many keys there are: Go's `len`. -/
def size (m : AList fun _ : α => β) : ℕ := m.entries.length

/-- The same keys in the same order, each value represented by `f`. -/
def mapValues {γ : Type*} (f : β → γ) (m : AList fun _ : α => β) : AList fun _ : α => γ where
  entries := m.entries.map fun e => ⟨e.1, f e.2⟩
  nodupKeys := by
    have hkeys : (m.entries.map fun e => (⟨e.1, f e.2⟩ : Sigma fun _ : α => γ)).keys =
        m.entries.keys := List.map_map
    rw [List.NodupKeys, hkeys]
    exact m.nodupKeys

theorem lookup_keep [DecidableEq α] (p : β → Bool) (m : AList fun _ : α => β) (a : α) :
    (keep p m).lookup a = (m.lookup a).filter p := by
  apply Option.ext
  intro b
  rw [Option.filter_eq_some_iff]
  have hkeep : ∀ b, (keep p m).lookup a = some b ↔ ⟨a, b⟩ ∈ (keep p m).entries :=
    fun b => AList.mem_lookup_iff
  have hm : ∀ b, m.lookup a = some b ↔ ⟨a, b⟩ ∈ m.entries := fun b => AList.mem_lookup_iff
  rw [hkeep, hm]
  exact List.mem_filter

theorem mem_of_mem_keep {p : β → Bool} {m : AList fun _ : α => β} {a : α} (h : a ∈ keep p m) :
    a ∈ m := by
  rw [AList.mem_keys] at h ⊢
  obtain ⟨e, he, rfl⟩ := List.mem_map.mp h
  exact List.mem_map_of_mem (List.mem_filter.mp he).1

theorem lookup_of_keep [DecidableEq α] {p : β → Bool} {m : AList fun _ : α => β} {a : α} {b : β}
    (h : (keep p m).lookup a = some b) : m.lookup a = some b := by
  rw [lookup_keep] at h
  exact (Option.filter_eq_some_iff.mp h).1

theorem lookup_of_erase [DecidableEq α] {m : AList fun _ : α => β} {a key : α} {b : β}
    (h : (m.erase key).lookup a = some b) : m.lookup a = some b := by
  by_cases ha : a = key
  · rw [ha, AList.lookup_erase] at h
    cases h
  · rwa [AList.lookup_erase_ne ha] at h

theorem size_le_card [DecidableEq α] {m : AList fun _ : α => β} {K : Finset α}
    (h : ∀ a ∈ m, a ∈ K) : size m ≤ K.card := by
  have hlen : size m = m.keys.toFinset.card := by
    rw [List.toFinset_card_of_nodup m.keys_nodup]
    exact (List.length_map _).symm
  rw [hlen]
  apply Finset.card_le_card
  intro a ha
  exact h a (AList.mem_keys.mpr (List.mem_toFinset.mp ha))

/-! ## How many entries an operation leaves -/

section Size

variable {m : AList fun _ : α => β} {a : α} {b : β}

theorem size_eq_keys (m : AList fun _ : α => β) : size m = m.keys.length :=
  (List.length_map _).symm

theorem size_keep_le (p : β → Bool) (m : AList fun _ : α => β) : size (keep p m) ≤ size m :=
  List.length_filter_le _ _

theorem size_erase_of_mem [DecidableEq α] (h : a ∈ m) : size (m.erase a) = size m - 1 := by
  rw [size_eq_keys, size_eq_keys, AList.keys_erase]
  exact List.length_erase_of_mem (AList.mem_keys.mp h)

theorem size_erase_le [DecidableEq α] (m : AList fun _ : α => β) (a : α) :
    size (m.erase a) ≤ size m := by
  rw [size_eq_keys, size_eq_keys, AList.keys_erase]
  exact List.length_erase_le

theorem size_insert_le [DecidableEq α] : size (m.insert a b) ≤ size m + 1 := by
  rw [size_eq_keys, size_eq_keys, AList.keys_insert, List.length_cons]
  exact Nat.succ_le_succ List.length_erase_le

theorem size_insert_of_mem [DecidableEq α] (h : a ∈ m) : size (m.insert a b) = size m := by
  have hmem := AList.mem_keys.mp h
  have hpos := List.length_pos_of_mem hmem
  rw [size_eq_keys, size_eq_keys, AList.keys_insert, List.length_cons,
    List.length_erase_of_mem hmem]
  omega

end Size

/-! ## Making room -/

section Evict

variable [DecidableEq α] {p : β → Bool} {cap : ℕ} {first : (AList fun _ : α => β) → α}
  {m : AList fun _ : α => β} {a : α} {b : β}

/-- A sweep, and if there are `cap` entries still, the one under the key that
`first` picks is deleted. -/
def evict (p : β → Bool) (cap : ℕ) (first : (AList fun _ : α => β) → α)
    (m : AList fun _ : α => β) : AList fun _ : α => β :=
  let swept := keep p m
  if size swept < cap then swept else swept.erase (first swept)

theorem lookup_of_evict (h : (evict p cap first m).lookup a = some b) : m.lookup a = some b := by
  unfold evict at h
  dsimp only at h
  split at h
  · exact lookup_of_keep h
  · exact lookup_of_keep (lookup_of_erase h)

/-- A map that is not over the cap is below it then, if what is picked is a key. -/
theorem size_evict_lt (hcap : 0 < cap)
    (hfirst : ∀ m : AList fun _ : α => β, m.keys ≠ [] → first m ∈ m.keys) (h : size m ≤ cap) :
    size (evict p cap first m) < cap := by
  have hle := size_keep_le p m
  unfold evict
  dsimp only
  split
  next hroom => exact hroom
  next hfull =>
    have hpos : 0 < (keep p m).keys.length := by
      rw [← size_eq_keys]
      omega
    have hmem := hfirst _ (List.ne_nil_of_length_pos hpos)
    rw [size_erase_of_mem (AList.mem_keys.mpr hmem)]
    omega

end Evict

/-! ## Another representation of the values -/

section MapValues

variable {γ : Type*} {f : β → γ} {m : AList fun _ : α => β}

theorem keys_mapValues : (mapValues f m).keys = m.keys := List.map_map

theorem size_mapValues : size (mapValues f m) = size m := List.length_map _

theorem keep_mapValues {p : γ → Bool} {q : β → Bool} (h : ∀ b, p (f b) = q b) :
    keep p (mapValues f m) = mapValues f (keep q m) := by
  apply AList.ext
  show (m.entries.map _).filter _ = (m.entries.filter _).map _
  rw [List.filter_map]
  congr 2
  funext e
  exact h e.2

variable [DecidableEq α] {a : α} {b : β}

theorem lookup_mapValues : (mapValues f m).lookup a = (m.lookup a).map f := by
  apply Option.ext
  intro c
  rw [Option.map_eq_some_iff]
  have hm : ∀ b, m.lookup a = some b ↔ ⟨a, b⟩ ∈ m.entries := fun b => AList.mem_lookup_iff
  have hmap : (mapValues f m).lookup a = some c ↔ ⟨a, c⟩ ∈ (mapValues f m).entries :=
    AList.mem_lookup_iff
  rw [hmap]
  constructor
  · intro h
    obtain ⟨⟨a', b⟩, hmem, heq⟩ := List.mem_map.mp h
    cases heq
    exact ⟨b, (hm b).mpr hmem, rfl⟩
  · rintro ⟨b, hb, rfl⟩
    exact List.mem_map.mpr ⟨⟨a, b⟩, (hm b).mp hb, rfl⟩

theorem erase_mapValues : (mapValues f m).erase a = mapValues f (m.erase a) := by
  apply AList.ext
  show (m.entries.map _).eraseP _ = (m.entries.eraseP _).map _
  rw [List.eraseP_map]
  rfl

theorem insert_mapValues : (mapValues f m).insert a (f b) = mapValues f (m.insert a b) := by
  have herase := congrArg AList.entries (@erase_mapValues _ _ _ f m _ a)
  exact AList.ext (congrArg (List.cons (⟨a, f b⟩ : Sigma fun _ : α => γ)) herase)

end MapValues

end MiddlewareUtils.Lib
