import MiddlewareUtils.Proofs.TrieCanonical

/-!
# When a lookup runs out of address

`Contains` walks 128 bits for everything that is not an IPv4 address, and a
`net.IP` may have any number of bytes. Four or sixteen are safe, and so are
more than sixteen. A shorter one is walked to its last bit, and what happens
then depends on the tree: with no node left the walk is over, with a node
left it asks for the next bit, which is an index outside the address.

So a lookup panics exactly when the path of the address ends at a node. For
the empty address that is the root, which is always there. Elsewhere no node
hangs without need (`Tidy`): it leads to an endpoint, which is a stored
network that goes on from the address, and every stored network that does
keeps its whole path. The condition is about the stored networks only.
-/

namespace MiddlewareUtils.IpLookup

open Lib

/-! ## Bits and bytes -/

theorem byteBits_injective {x y : Byte} (h : byteBits x = byteBits y) : x = y := by
  have htake : (byteBits x).take 8 = (byteBits y).take 8 := by rw [h]
  apply BitVec.eq_of_getMsbD_eq
  intro i hi
  exact (take_byteBits_eq_iff 8 x y).mp htake i hi hi

theorem bitsOf_prefix_iff {a b : IP} : bitsOf a <+: bitsOf b ↔ a <+: b := by
  induction a generalizing b with
  | nil => exact iff_of_true List.nil_prefix List.nil_prefix
  | cons x a ih =>
    cases b with
    | nil =>
      constructor
      · intro h
        have hlen := h.length_le
        rw [length_bitsOf, length_bitsOf, List.length_cons, List.length_nil] at hlen
        omega
      · intro h
        exact absurd (List.prefix_nil.mp h) nofun
    | cons y b =>
      rw [bitsOf_cons, bitsOf_cons, List.cons_prefix_cons, ← ih]
      have hlen : (byteBits x).length = (byteBits y).length := by
        rw [length_byteBits, length_byteBits]
      constructor
      · rintro ⟨rest, h⟩
        rw [List.append_assoc] at h
        obtain ⟨hx, hrest⟩ := List.append_inj h hlen
        exact ⟨byteBits_injective hx, rest, hrest⟩
      · rintro ⟨rfl, rest, hrest⟩
        exact ⟨rest, by rw [List.append_assoc, hrest]⟩

theorem bitAt_of_end {ip : IP} {i : ℕ} (h : (bitsOf ip).drop i = []) : bitAt ip i = none := by
  have hget : (bitsOf ip)[i]? = none := by
    rw [← Nat.add_zero i, ← List.getElem?_drop, h]
    rfl
  rw [bitsOf_getElem?] at hget
  exact Option.map_eq_none_iff.mp hget

/-! ## The end of the walk -/

theorem view_subtree {n : RadixNode} {w q : List Bool} :
    view (n.subtree w) q = view n (w ++ q) := by
  induction w generalizing n with
  | nil => rfl
  | cons b w ih =>
    cases n with
    | nil =>
      rw [subtree_nil, view_nil, view_nil]
    | node => exact ih

theorem containsFrom_isSome_iff {walk : IP} {w : List Bool} {i k : ℕ} {n : RadixNode}
    {best : Match} (hw : (bitsOf walk).drop i = w) (hk : w.length < k) :
    (RadixNode.containsFrom walk k i n best).isSome ↔ n.subtree w = .nil := by
  induction w generalizing i k n best with
  | nil =>
    obtain ⟨k, rfl⟩ : ∃ k', k = k' + 1 := ⟨k - 1, by rw [List.length_nil] at hk; omega⟩
    cases n with
    | nil => exact iff_of_true rfl rfl
    | node =>
      rw [RadixNode.containsFrom, bitAt_of_end hw]
      exact iff_of_false (fun h => by cases h) fun h => by cases h
  | cons b w ih =>
    rw [List.length_cons] at hk
    obtain ⟨k, rfl⟩ : ∃ k', k = k' + 1 := ⟨k - 1, by omega⟩
    cases n with
    | nil => exact iff_of_true rfl (subtree_nil _)
    | node isEndpoint len label left right =>
      have hprefix : b :: w <+: (bitsOf walk).drop i := by rw [hw]
      have hnext : (bitsOf walk).drop (i + 1) = w := by
        rw [← List.tail_drop, hw]
        rfl
      obtain ⟨bit, hbit, hb⟩ := bitAt_of_drop hprefix
      rw [RadixNode.containsFrom, hbit]
      simp only [Option.bind_eq_bind, Option.bind_some, ite_bit hb left right]
      exact ih hnext (by omega)

section Lookup

variable {h : Helper} {stored : Networks} {ip : IP}

theorem to4_of_other (h4 : ip.length ≠ 4) (h16 : ip.length ≠ 16) : to4 ip = none := by
  rw [to4, if_neg h4, if_neg fun hc => h16 hc.1]

theorem contains_of_other (h4 : ip.length ≠ 4) (h16 : ip.length ≠ 16) :
    (h.contains (some ip)).isSome ↔
      (RadixNode.containsFrom ip 128 0 (h.tree false) ⟨false, 0, ""⟩).isSome := by
  have hv4 : isIPv4 ip = false := by rw [isIPv4, to4_of_other h4 h16]; rfl
  have hwalk : (h.treeFor ip).contains ip =
      RadixNode.containsFrom ip 128 0 (h.tree false) ⟨false, 0, ""⟩ := by
    rw [Helper.tree_treeFor, hv4, RadixNode.contains, familyWalk, to4_of_other h4 h16]
  rw [Helper.contains, hwalk]
  cases RadixNode.containsFrom ip 128 0 (h.tree false) ⟨false, 0, ""⟩ with
  | none => exact Iff.rfl
  | some m => exact iff_of_true rfl rfl

theorem contains_of_long (hlong : 16 < ip.length) : (h.contains (some ip)).isSome := by
  rw [contains_of_other (by omega) (by omega)]
  have hlen : ((bitsOf ip).take 128).length = 128 := by
    rw [List.length_take, length_bitsOf]
    omega
  have hwalk : (bitsOf ip).take 128 <+: (bitsOf ip).drop 0 := List.take_prefix _ _
  rw [← hlen, containsFrom_spec hwalk]
  rfl

/-- The stored network goes on where the address ends. -/
def IPNet.Continues (n : IPNet) (ip : IP) : Prop :=
  n.ip.length = 16 ∧ 8 * ip.length ≤ n.mask.ones ∧ ip <+: n.ip

theorem IPNet.Canonical.continues_iff {n : IPNet} (hn : n.Canonical) :
    n.Continues ip ↔ isIPv4 n.ip = false ∧ bitsOf ip <+: n.bits := by
  have hfam : n.ip.length = 16 ↔ isIPv4 n.ip = false := by
    rw [← Bool.not_eq_true, hn.isIPv4_iff]
    rcases hn.family with ⟨hl, -⟩ | ⟨hl, -⟩ <;> omega
  have hbits : bitsOf ip <+: n.bits ↔ 8 * ip.length ≤ n.mask.ones ∧ ip <+: n.ip := by
    rw [IPNet.bits, List.prefix_take_iff, bitsOf_prefix_iff, length_bitsOf, and_comm]
  rw [IPNet.Continues, hfam, hbits]

theorem Canon.subtree_eq_nil_iff (hc : Canon h stored) (hne : ip ≠ []) :
    (h.tree false).subtree (bitsOf ip) = .nil ↔
      ∀ n label, stored.lookup n = some label → ¬ n.Continues ip := by
  have hbits : bitsOf ip ≠ [] := by
    intro hnil
    have hlen := length_bitsOf ip
    rw [hnil, List.length_nil] at hlen
    exact hne (List.length_eq_zero_iff.mp (by omega))
  constructor
  · intro hnil n label hl hcont
    obtain ⟨hn, hv⟩ := hc.held n label hl
    obtain ⟨hfam, q, hq⟩ := hn.continues_iff.mp hcont
    rw [hfam, ← hq, ← view_subtree, hnil, view_nil] at hv
    cases hv
  · intro hnone
    by_contra hnode
    obtain ⟨q, hq⟩ := ((hc.rooted false).subtree hbits).leads hnode
    obtain ⟨⟨len, label⟩, hv⟩ := Option.ne_none_iff_exists'.mp hq
    rw [view_subtree] at hv
    obtain ⟨n, hl, hfam, hpath, -⟩ := hc.shown _ _ len label hv
    refine hnone n label hl ((hc.held n label hl).1.continues_iff.mpr ⟨hfam, ?_⟩)
    rw [hpath]
    exact List.prefix_append _ _

theorem Canon.contains_isSome_iff (hc : Canon h stored) (ip : IP) :
    (h.contains (some ip)).isSome ↔
      ip.length = 4 ∨ 16 ≤ ip.length ∨
        ip ≠ [] ∧ ∀ n label, stored.lookup n = some label → ¬ n.Continues ip := by
  by_cases hsized : ip.length = 4 ∨ ip.length = 16
  · rw [contains_eq hsized]
    exact iff_of_true rfl (by omega)
  · push Not at hsized
    by_cases hlong : 16 < ip.length
    · exact iff_of_true (contains_of_long hlong) (.inr (.inl hlong.le))
    · have hroom : (bitsOf ip).length < 128 := by
        rw [length_bitsOf]
        omega
      have hnotsized : ¬ ip.length = 4 ∧ ¬ 16 ≤ ip.length := ⟨hsized.1, by omega⟩
      rw [contains_of_other hsized.1 hsized.2, containsFrom_isSome_iff List.drop_zero hroom,
        or_iff_right hnotsized.1, or_iff_right hnotsized.2]
      by_cases hne : ip = []
      · subst hne
        exact iff_of_false (hc.roots false) fun hcond => hcond.1 rfl
      · rw [hc.subtree_eq_nil_iff hne, and_iff_right hne]

end Lookup

/-- After every history a lookup returns, but for an address of too few bytes
that a stored IPv6 network starts with, and for the empty one. -/
theorem contains_returns_iff (p : Parser) (ops : List Op) (ip : IP) :
    ∃ h, Lib.run (Helper.step p) .new ops = some h ∧
      ((h.contains (some ip)).isSome ↔
        ip.length = 4 ∨ 16 ≤ ip.length ∨
          ip ≠ [] ∧ ∀ n label, (Networks.after p ops).lookup n = some label →
            ¬ n.Continues ip) := by
  obtain ⟨h, hrun, hc⟩ := Canon.new.run p ops
  exact ⟨h, hrun, hc.contains_isSome_iff ip⟩

/-- `2001:db8::/32`, as `ParseCIDR` gives it. -/
def oneNetwork : Parser where
  parseCIDR cidr :=
    if cidr = "2001:db8::/32" then
      .ok ⟨[0x20, 0x01, 0x0d, 0xb8, 0, 0, 0, 0, 0, 0, 0, 0, 0, 0, 0, 0], ⟨32, 128⟩⟩
    else .error "invalid CIDR address"
  parsed := by
    intro cidr block h
    split at h
    · injection h with h
      subst h
      exact ⟨.inr ⟨rfl, rfl⟩, by decide, by decide⟩
    · cases h

/-- `net.IP{}` panics on a new helper, and the first two bytes of a stored
network on one that has it. -/
theorem short_address_panics :
    Helper.new.contains (some []) = none ∧
      (Lib.run (Helper.step oneNetwork) .new [.addCIDR "2001:db8::/32" "doc"]).map
        (·.contains (some [0x20, 0x01])) = some none := by
  decide +kernel

end MiddlewareUtils.IpLookup
