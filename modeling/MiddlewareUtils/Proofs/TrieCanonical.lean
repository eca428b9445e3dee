import Mathlib.Algebra.GroupWithZero.Nat
import MiddlewareUtils.Lib.Keyed
import MiddlewareUtils.Proofs.LongestMatch

/-!
# The trees are a function of the stored networks

The view of a tree says which networks are stored, and any number of trees
have the same view: empty nodes may hang anywhere. `insert` makes whole paths
and `remove` prunes them again bottom-up, and what they keep between them is
that no node hangs without need. Below the root every node is an endpoint or
has a child, an endpoint stores its depth, and a node that is none stores
nothing (`Tidy`). The root is the one node that may be empty, which is also
where a network of length 0 is stored.

A tidy tree is determined by its view: a tidy node that is not `nil` leads to
an endpoint, so `nil` and a node never look alike, and the rest is induction.
So trees and count are determined by the map, whatever the history was, and a
node is paid for by an endpoint below it.
-/

namespace MiddlewareUtils.IpLookup

open Lib

/-! ## Tidy trees -/

def FieldsAt (d : ℕ) (isEndpoint : Bool) (len : ℕ) (label : String) : Prop :=
  if isEndpoint then len = d else len = 0 ∧ label = ""

def Tidy : ℕ → RadixNode → Prop
  | _, .nil => True
  | d, .node isEndpoint len label left right =>
    (isEndpoint = true ∨ left ≠ .nil ∨ right ≠ .nil) ∧ FieldsAt d isEndpoint len label ∧
      Tidy (d + 1) left ∧ Tidy (d + 1) right

def Rooted (d : ℕ) : RadixNode → Prop
  | .nil => False
  | .node isEndpoint len label left right =>
    FieldsAt d isEndpoint len label ∧ Tidy (d + 1) left ∧ Tidy (d + 1) right

namespace RadixNode

def endpointSum (w : ℕ → ℕ) : RadixNode → ℕ
  | .nil => 0
  | .node isEndpoint len _ left right =>
    (if isEndpoint then w len else 0) + left.endpointSum w + right.endpointSum w

def endpointCount (n : RadixNode) : ℕ := n.endpointSum fun _ => 1

def nodeCount : RadixNode → ℕ
  | .nil => 0
  | .node _ _ _ left right => 1 + left.nodeCount + right.nodeCount

def subtree : RadixNode → List Bool → RadixNode
  | n, [] => n
  | .nil, _ :: _ => .nil
  | .node _ _ _ left right, b :: path => subtree (if b then right else left) path

end RadixNode

variable {d : ℕ} {n n' : RadixNode} {w : ℕ → ℕ}

theorem rooted_new (d : ℕ) : Rooted d .new := ⟨⟨rfl, rfl⟩, trivial, trivial⟩

theorem node_ne_nil {isEndpoint : Bool} {len : ℕ} {label : String} {left right : RadixNode} :
    RadixNode.node isEndpoint len label left right ≠ .nil := by
  intro h
  cases h

theorem Tidy.orNew (h : Tidy d n) : Rooted d n.orNew := by
  cases n with
  | nil => exact rooted_new d
  | node => exact h.2

theorem Rooted.pruned (h : Rooted d n) : Tidy d n.pruned := by
  unfold RadixNode.pruned
  split
  · trivial
  next hkept =>
    cases n with
    | nil => trivial
    | node isEndpoint len label left right =>
      refine ⟨?_, h⟩
      cases isEndpoint with
      | true => exact .inl rfl
      | false =>
        cases left with
        | node => exact .inr (.inl node_ne_nil)
        | nil =>
          cases right with
          | node => exact .inr (.inr node_ne_nil)
          | nil => exact absurd rfl (hkept len label)

theorem endpointSum_orNew (n : RadixNode) : n.orNew.endpointSum w = n.endpointSum w := by
  cases n <;> rfl

theorem endpointSum_pruned (n : RadixNode) : n.pruned.endpointSum w = n.endpointSum w := by
  unfold RadixNode.pruned
  split <;> rfl

/-! ## The walks keep the shape -/

theorem insertFrom_rooted {ip : IP} {prefixLen : ℕ} {metadata : String} {k i : ℕ} {added : Bool}
    (hk : prefixLen = i + k) (h : Rooted i n)
    (hins : RadixNode.insertFrom ip prefixLen metadata k i n = some (n', added)) :
    Rooted i n' ∧ Tidy i n' ∧ n' ≠ .nil ∧
      n'.endpointSum w = n.endpointSum w + if added then w prefixLen else 0 := by
  induction k generalizing i n n' with
  | zero =>
    cases n with
    | nil => exact h.elim
    | node isEndpoint len label left right =>
      obtain ⟨hfields, hleft, hright⟩ := h
      cases isEndpoint with
      | true =>
        cases hins
        exact ⟨⟨hfields, hleft, hright⟩, ⟨.inl rfl, hfields, hleft, hright⟩, node_ne_nil, rfl⟩
      | false =>
        cases hins
        refine ⟨⟨hk, hleft, hright⟩, ⟨.inl rfl, hk, hleft, hright⟩, node_ne_nil, ?_⟩
        simp only [RadixNode.endpointSum, if_true, Bool.false_eq_true, if_false]
        omega
  | succ k ih =>
    cases n with
    | nil => exact h.elim
    | node isEndpoint len label left right =>
      obtain ⟨hfields, hleft, hright⟩ := h
      rw [RadixNode.insertFrom] at hins
      obtain ⟨bit, -, hins⟩ := Option.bind_eq_some_iff.mp hins
      split at hins
      · obtain ⟨⟨next, added⟩, hnext, heq⟩ := Option.bind_eq_some_iff.mp hins
        cases heq
        obtain ⟨-, htidy, hne, hsum⟩ := ih (by omega) hleft.orNew hnext
        rw [endpointSum_orNew] at hsum
        refine ⟨⟨hfields, htidy, hright⟩, ⟨.inr (.inl hne), hfields, htidy, hright⟩,
          node_ne_nil, ?_⟩
        simp only [RadixNode.endpointSum, hsum]
        omega
      · obtain ⟨⟨next, added⟩, hnext, heq⟩ := Option.bind_eq_some_iff.mp hins
        cases heq
        obtain ⟨-, htidy, hne, hsum⟩ := ih (by omega) hright.orNew hnext
        rw [endpointSum_orNew] at hsum
        refine ⟨⟨hfields, hleft, htidy⟩, ⟨.inr (.inr hne), hfields, hleft, htidy⟩,
          node_ne_nil, ?_⟩
        simp only [RadixNode.endpointSum, hsum]
        omega

theorem removed_below {ip : IP} {k i : ℕ} {child : RadixNode} {rebuild : RadixNode → RadixNode}
    (h : (match child with
      | .nil => some none
      | next => do
          match ← RadixNode.removeFrom ip k i next with
          | none => some none
          | some next => some (some (rebuild next))) = some (some n')) :
    ∃ next, RadixNode.removeFrom ip k i child = some (some next) ∧ rebuild next = n' := by
  split at h
  · cases h
  · obtain ⟨found, hfound, h⟩ := Option.bind_eq_some_iff.mp h
    cases found with
    | none => cases h
    | some next =>
      cases h
      exact ⟨next, hfound, rfl⟩

theorem Tidy.rooted {ip : IP} {k i : ℕ} {found : Option RadixNode} (h : Tidy d n)
    (hrem : RadixNode.removeFrom ip k i n = some found) : Rooted d n := by
  cases n with
  | nil =>
    rw [RadixNode.removeFrom] at hrem
    cases hrem
  | node => exact h.2

theorem removeFrom_rooted {ip : IP} {k i : ℕ} (h : Rooted i n)
    (hrem : RadixNode.removeFrom ip k i n = some (some n')) :
    Rooted i n' ∧ n.endpointSum w = n'.endpointSum w + w (i + k) := by
  induction k generalizing i n n' with
  | zero =>
    cases n with
    | nil => exact h.elim
    | node isEndpoint len label left right =>
      obtain ⟨hfields, hleft, hright⟩ := h
      cases isEndpoint with
      | false => cases hrem
      | true =>
        cases hrem
        refine ⟨⟨⟨rfl, rfl⟩, hleft, hright⟩, ?_⟩
        have hlen : len = i := hfields
        simp only [RadixNode.endpointSum, if_true, Bool.false_eq_true, if_false, hlen,
          Nat.add_zero]
        omega
  | succ k ih =>
    cases n with
    | nil => exact h.elim
    | node isEndpoint len label left right =>
      obtain ⟨hfields, hleft, hright⟩ := h
      rw [RadixNode.removeFrom] at hrem
      obtain ⟨bit, -, hrem⟩ := Option.bind_eq_some_iff.mp hrem
      have hdepth : i + (k + 1) = i + 1 + k := by omega
      by_cases hbit : bit = 0
      · simp only [hbit, if_true] at hrem
        obtain ⟨next, hnext, heq⟩ := removed_below hrem
        cases heq
        obtain ⟨hrooted, hsum⟩ := ih (hleft.rooted hnext) hnext
        refine ⟨⟨hfields, hrooted.pruned, hright⟩, ?_⟩
        simp only [RadixNode.endpointSum, endpointSum_pruned, hsum, hdepth]
        omega
      · simp only [hbit, if_false] at hrem
        obtain ⟨next, hnext, heq⟩ := removed_below hrem
        cases heq
        obtain ⟨hrooted, hsum⟩ := ih (hright.rooted hnext) hnext
        refine ⟨⟨hfields, hleft, hrooted.pruned⟩, ?_⟩
        simp only [RadixNode.endpointSum, endpointSum_pruned, hsum, hdepth]
        omega

/-! ## A tidy tree is determined by its view -/

theorem Tidy.leads (h : Tidy d n) (hn : n ≠ .nil) : ∃ q, view n q ≠ none := by
  induction n generalizing d with
  | nil => exact absurd rfl hn
  | node isEndpoint len label left right ihl ihr =>
    obtain ⟨hheld, -, hleft, hright⟩ := h
    rcases hheld with rfl | hne | hne
    · exact ⟨[], nofun⟩
    · obtain ⟨q, hq⟩ := ihl hleft hne
      exact ⟨false :: q, hq⟩
    · obtain ⟨q, hq⟩ := ihr hright hne
      exact ⟨true :: q, hq⟩

theorem FieldsAt.ext {e e' : Bool} {len len' : ℕ} {label label' : String} {l r l' r' : RadixNode}
    (h : FieldsAt d e len label) (h' : FieldsAt d e' len' label')
    (hview : view (.node e len label l r) [] = view (.node e' len' label' l' r') []) :
    e = e' ∧ len = len' ∧ label = label' := by
  cases e with
  | true =>
    cases e' with
    | true =>
      injection hview with hview
      injection hview with hlen hlabel
      exact ⟨rfl, hlen, hlabel⟩
    | false => cases hview
  | false =>
    cases e' with
    | true => cases hview
    | false =>
      obtain ⟨rfl, rfl⟩ := h
      obtain ⟨rfl, rfl⟩ := h'
      exact ⟨rfl, rfl, rfl⟩

theorem Tidy.ext (h : Tidy d n) (h' : Tidy d n') (hview : ∀ q, view n q = view n' q) :
    n = n' := by
  induction n generalizing d n' with
  | nil =>
    cases n' with
    | nil => rfl
    | node =>
      obtain ⟨q, hq⟩ := h'.leads nofun
      exact absurd ((hview q).symm.trans (view_nil q)) hq
  | node e len label l r ihl ihr =>
    cases n' with
    | nil =>
      obtain ⟨q, hq⟩ := h.leads nofun
      exact absurd ((hview q).trans (view_nil q)) hq
    | node e' len' label' l' r' =>
      obtain ⟨rfl, rfl, rfl⟩ := h.2.1.ext h'.2.1 (hview [])
      rw [ihl h.2.2.1 h'.2.2.1 fun q => hview (false :: q),
        ihr h.2.2.2 h'.2.2.2 fun q => hview (true :: q)]

theorem Rooted.ext (h : Rooted d n) (h' : Rooted d n') (hview : ∀ q, view n q = view n' q) :
    n = n' := by
  cases n with
  | nil => exact h.elim
  | node e len label l r =>
    cases n' with
    | nil => exact h'.elim
    | node e' len' label' l' r' =>
      obtain ⟨rfl, rfl, rfl⟩ := h.1.ext h'.1 (hview [])
      rw [h.2.1.ext h'.2.1 fun q => hview (false :: q),
        h.2.2.ext h'.2.2 fun q => hview (true :: q)]

/-! ## Paths -/

theorem subtree_nil (q : List Bool) : RadixNode.nil.subtree q = .nil := by
  cases q <;> rfl

theorem Tidy.subtree (h : Tidy d n) (q : List Bool) : Tidy (d + q.length) (n.subtree q) := by
  induction q generalizing d n with
  | nil => exact h
  | cons b q ih =>
    cases n with
    | nil => trivial
    | node e len label l r =>
      have hdepth : d + (b :: q).length = d + 1 + q.length := by
        rw [List.length_cons]
        omega
      rw [hdepth]
      cases b with
      | false => exact ih h.2.2.1
      | true => exact ih h.2.2.2

theorem Rooted.subtree (h : Rooted d n) {q : List Bool} (hq : q ≠ []) :
    Tidy (d + q.length) (n.subtree q) := by
  cases q with
  | nil => exact absurd rfl hq
  | cons b q =>
    cases n with
    | nil => exact h.elim
    | node e len label l r =>
      have hdepth : d + (b :: q).length = d + 1 + q.length := by
        rw [List.length_cons]
        omega
      rw [hdepth]
      cases b with
      | false => exact h.2.1.subtree q
      | true => exact h.2.2.subtree q

theorem view_eq_some_iff {q : List Bool} {len : ℕ} {label : String} :
    view n q = some (len, label) ↔ ∃ l r, n.subtree q = .node true len label l r := by
  induction q generalizing n with
  | nil =>
    cases n with
    | nil => exact ⟨nofun, nofun⟩
    | node e len' label' l r =>
      cases e with
      | false => exact ⟨nofun, nofun⟩
      | true =>
        constructor
        · intro h
          cases h
          exact ⟨l, r, rfl⟩
        · rintro ⟨l', r', h⟩
          cases h
          rfl
  | cons b q ih =>
    cases n with
    | nil =>
      rw [view_nil, subtree_nil]
      exact ⟨nofun, nofun⟩
    | node => exact ih

/-! ## A node is paid for by an endpoint below it -/

theorem Tidy.endpointCount_pos (h : Tidy d n) (hn : n ≠ .nil) : 0 < n.endpointCount := by
  induction n generalizing d with
  | nil => exact absurd rfl hn
  | node e len label l r ihl ihr =>
    obtain ⟨hheld, -, hleft, hright⟩ := h
    simp only [RadixNode.endpointCount, RadixNode.endpointSum] at ihl ihr ⊢
    rcases hheld with rfl | hne | hne
    · simp only [if_true]
      omega
    · have := ihl hleft hne
      omega
    · have := ihr hright hne
      omega

theorem Tidy.nodeCount_le (h : Tidy d n) :
    n.nodeCount + d * n.endpointCount ≤ n.endpointSum id + n.endpointCount := by
  induction n generalizing d with
  | nil => exact Nat.le_refl _
  | node e len label l r ihl ihr =>
    have hpos := h.endpointCount_pos nofun
    obtain ⟨-, hfields, hleft, hright⟩ := h
    have hl := ihl hleft
    have hr := ihr hright
    simp only [RadixNode.endpointCount, RadixNode.endpointSum, RadixNode.nodeCount, id_eq]
      at hpos hl hr ⊢
    rw [Nat.add_one_mul] at hl hr
    rw [Nat.mul_add, Nat.mul_add]
    cases e with
    | true =>
      have hlen : len = d := hfields
      simp only [if_true, Nat.mul_one] at hpos ⊢
      omega
    | false =>
      simp only [Bool.false_eq_true, if_false, Nat.mul_zero] at hpos ⊢
      omega

theorem Rooted.nodeCount_le (h : Rooted 0 n) : n.nodeCount ≤ 1 + n.endpointSum id := by
  cases n with
  | nil => exact h.elim
  | node e len label l r =>
    have hl := h.2.1.nodeCount_le
    have hr := h.2.2.nodeCount_le
    simp only [RadixNode.endpointSum, RadixNode.nodeCount]
    omega

/-! ## The helper and the map -/

def Networks.sum (w : ℕ → ℕ) (stored : Networks) : ℕ :=
  (stored.keys.map fun n => w n.mask.ones).sum

theorem Networks.sum_erase {stored : Networks} {net : IPNet} (h : net ∈ stored) :
    stored.sum w = Networks.sum w (stored.erase net) + w net.mask.ones := by
  have hperm := (List.perm_cons_erase (AList.mem_keys.mp h)).map fun n => w n.mask.ones
  rw [Networks.sum, hperm.sum_nat, Networks.sum, AList.keys_erase, List.map_cons, List.sum_cons]
  omega

theorem Networks.sum_insert {stored : Networks} {net : IPNet} {label : String} :
    Networks.sum w (stored.insert net label) =
      stored.sum w + if net ∈ stored then 0 else w net.mask.ones := by
  rw [Networks.sum, AList.keys_insert, List.map_cons, List.sum_cons]
  split
  next hmem =>
    rw [Networks.sum_erase hmem, Networks.sum, AList.keys_erase]
    omega
  next hmem =>
    rw [List.erase_of_not_mem (mt AList.mem_keys.mpr hmem), Networks.sum]
    omega

structure Canon (h : Helper) (stored : Networks) : Prop extends Mirrors h stored where
  rooted : ∀ v4, Rooted 0 (h.tree v4)
  sums : ∀ w, (h.tree true).endpointSum w + (h.tree false).endpointSum w = stored.sum w
  counted : h.count = (h.tree true).endpointCount + (h.tree false).endpointCount

namespace Canon

variable {h h' : Helper} {stored stored' : Networks} {net : IPNet} {p : Parser}

theorem new : Canon .new ∅ := by
  refine ⟨mirrors_new, fun v4 => ?_, fun w => rfl, rfl⟩
  cases v4 <;> exact rooted_new 0

theorem mem_iff (hm : Mirrors h stored) (hn : net.Canonical) :
    view (h.tree (isIPv4 net.ip)) net.bits ≠ none ↔ net ∈ stored := by
  rw [← AList.lookup_isSome]
  constructor
  · intro hne
    obtain ⟨⟨len, label⟩, hv⟩ := Option.ne_none_iff_exists'.mp hne
    obtain ⟨n', hl, hfam, hbits, -⟩ := hm.shown _ _ len label hv
    rw [← (hm.held n' label hl).1.ext_bits hn hfam hbits, hl]
    rfl
  · intro hsome
    obtain ⟨label, hl⟩ := Option.isSome_iff_exists.mp hsome
    rw [(hm.held net label hl).2]
    nofun

theorem sum_setTree (h : Helper) (ip : IP) (t : RadixNode) :
    ((h.setTree ip t).tree true).endpointSum w + ((h.setTree ip t).tree false).endpointSum w +
        (h.treeFor ip).endpointSum w =
      (h.tree true).endpointSum w + (h.tree false).endpointSum w + t.endpointSum w := by
  rw [Helper.tree_setTree, Helper.tree_setTree, Helper.tree_treeFor]
  cases isIPv4 ip with
  | true =>
    rw [if_pos rfl, if_neg (by decide)]
    omega
  | false =>
    rw [if_neg (by decide), if_pos rfl]
    omega

theorem insert_rooted {block : IPNet} {t t' : RadixNode} {metadata : String} {added : Bool}
    (hn : block.Parsed) (ht : Rooted 0 t)
    (hins : t.insert block metadata = some (t', added)) :
    Rooted 0 t' ∧ ∀ w, t'.endpointSum w =
      t.endpointSum w + if added then w block.canonical.mask.ones else 0 := by
  have hlen : (prefixWalk block).2 = block.canonical.mask.ones :=
    hn.walk.2.trans hn.canonical_spec.1.length_bits
  rw [← hlen]
  have hspec := fun w => insertFrom_rooted (w := w) (Nat.zero_add _).symm ht hins
  exact ⟨(hspec id).1, fun w => (hspec w).2.2.2⟩

theorem remove_rooted {block : IPNet} {t t' : RadixNode} (hn : block.Parsed) (ht : Rooted 0 t)
    (hrem : t.remove block = some (some t')) :
    Rooted 0 t' ∧ ∀ w, t.endpointSum w = t'.endpointSum w + w block.canonical.mask.ones := by
  have hlen : 0 + (prefixWalk block).2 = block.canonical.mask.ones := by
    rw [Nat.zero_add]
    exact hn.walk.2.trans hn.canonical_spec.1.length_bits
  rw [← hlen]
  have hspec := fun w => removeFrom_rooted (w := w) ht hrem
  exact ⟨(hspec id).1, fun w => (hspec w).2⟩

theorem rooted_setTree (hc : Canon h stored) {ip : IP} {t : RadixNode} (ht : Rooted 0 t)
    (v4 : Bool) : Rooted 0 ((h.setTree ip t).tree v4) := by
  rw [Helper.tree_setTree]
  split
  · exact ht
  · exact hc.rooted v4

theorem count_setTree (h : Helper) (ip : IP) (t : RadixNode) :
    (h.setTree ip t).count = h.count := by
  unfold Helper.setTree
  split <;> rfl

theorem of_setTree (hc : Canon h stored) {ip : IP} {t : RadixNode} {count : ℤ}
    (hm : Mirrors { h.setTree ip t with count := count } stored') (ht : Rooted 0 t)
    (hsums : ∀ w, stored'.sum w + (h.treeFor ip).endpointSum w = stored.sum w + t.endpointSum w)
    (hcount : count + (h.treeFor ip).endpointCount = h.count + t.endpointCount) :
    Canon { h.setTree ip t with count := count } stored' := by
  refine ⟨hm, hc.rooted_setTree ht, fun w => ?_, ?_⟩
  · have hset := @sum_setTree w h ip t
    have hbefore := hc.sums w
    have hafter := hsums w
    show ((h.setTree ip t).tree true).endpointSum w + ((h.setTree ip t).tree false).endpointSum w =
      stored'.sum w
    omega
  · have hset := @sum_setTree (fun _ => 1) h ip t
    have hbefore := hc.counted
    show count = ((h.setTree ip t).tree true).endpointCount +
      ((h.setTree ip t).tree false).endpointCount
    unfold RadixNode.endpointCount at hbefore hcount ⊢
    omega

theorem addCIDR (hc : Canon h stored) {cidr : String} {block : IPNet}
    (hp : p.parseCIDR cidr = .ok block) (metadata : String) :
    ∃ h', h.addCIDR p cidr metadata = some (h', .ok ()) ∧
      Canon h' (stored.insert block.canonical metadata) := by
  have hparsed := p.parsed cidr block hp
  obtain ⟨hcan, hfam, -⟩ := hparsed.canonical_spec
  obtain ⟨t, hins, -, -⟩ := insert_spec hparsed (hc.roots (isIPv4 block.ip)) metadata
  obtain ⟨hrooted, hsum⟩ := insert_rooted hparsed (hc.rooted _) hins
  have hmem := mem_iff hc.toMirrors hcan
  rw [← hfam] at hmem
  generalize hadded : (view (h.tree (isIPv4 block.ip)) block.canonical.bits).isNone = added
    at hins hsum
  have hadd : h.addCIDR p cidr metadata =
      some ({ h.setTree block.ip t with
        count := (h.setTree block.ip t).count + if added then 1 else 0 }, .ok ()) := by
    rw [Helper.addCIDR, hp]
    dsimp only
    rw [Helper.tree_treeFor, hins]
    cases added with
    | true => rfl
    | false =>
      dsimp only [Option.bind_eq_bind, Option.bind_some]
      rw [if_neg Bool.false_ne_true, if_neg Bool.false_ne_true, Int.add_zero]
  obtain ⟨h'', hstep, hm⟩ := hc.toMirrors.addCIDR p cidr metadata
  rw [Helper.step, hadd] at hstep
  cases hstep
  rw [Networks.step, hp] at hm
  have hnew : ∀ w : ℕ → ℕ, (if block.canonical ∈ stored then 0 else w block.canonical.mask.ones) =
      if added then w block.canonical.mask.ones else 0 := by
    intro w
    by_cases hin : block.canonical ∈ stored
    · have hfalse : added = false := by
        rw [← hadded, Option.isNone_eq_false_iff, Option.isSome_iff_ne_none]
        exact hmem.mpr hin
      rw [if_pos hin, hfalse, if_neg Bool.false_ne_true]
    · have htrue : added = true := by
        rw [← hadded, Option.isNone_iff_eq_none]
        exact not_not.mp (mt hmem.mp hin)
      rw [if_neg hin, htrue, if_pos rfl]
  refine ⟨_, hadd, hc.of_setTree hm hrooted (fun w => ?_) ?_⟩
  · have hstored := @Networks.sum_insert w stored block.canonical metadata
    rw [hnew w] at hstored
    have ht := hsum w
    rw [Helper.tree_treeFor]
    omega
  · have ht := hsum fun _ => 1
    rw [Helper.tree_treeFor, count_setTree]
    unfold RadixNode.endpointCount
    rw [ht]
    cases added with
    | true =>
      simp only [if_true]
      push_cast
      omega
    | false => rw [if_neg Bool.false_ne_true, if_neg Bool.false_ne_true, Int.add_zero, Nat.add_zero]

theorem removeCIDR (hc : Canon h stored) {cidr : String} {block : IPNet}
    (hp : p.parseCIDR cidr = .ok block) :
    ∃ h', h.removeCIDR p cidr = some (h', .ok (stored.lookup block.canonical).isSome) ∧
      Canon h' (stored.erase block.canonical) := by
  have hparsed := p.parsed cidr block hp
  obtain ⟨hcan, hfam, -⟩ := hparsed.canonical_spec
  have hmem := mem_iff hc.toMirrors hcan
  rw [← hfam] at hmem
  obtain ⟨h'', hstep, hm⟩ := hc.toMirrors.removeCIDR p cidr
  rw [Networks.step, hp] at hm
  rcases remove_spec hparsed (hc.roots (isIPv4 block.ip)) with
    ⟨hnone, hrem⟩ | ⟨t, hsome, hrem, -, -⟩
  · have hremove : h.removeCIDR p cidr = some (h, .ok false) := by
      rw [Helper.removeCIDR, hp]
      dsimp only
      rw [Helper.tree_treeFor, hrem]
      rfl
    have hout : block.canonical ∉ stored := fun hin => hmem.mpr hin hnone
    have hlookup := AList.lookup_eq_none.mpr hout
    rw [Helper.step, hremove] at hstep
    cases hstep
    refine ⟨h, ?_, hm, hc.rooted, fun w => ?_, hc.counted⟩
    · rw [hremove, hlookup]
      rfl
    · rw [hc.sums w, Networks.sum, Networks.sum, AList.keys_erase,
        List.erase_of_not_mem (mt AList.mem_keys.mpr hout)]
  · have hremove : h.removeCIDR p cidr =
        some ({ h.setTree block.ip t with count := (h.setTree block.ip t).count - 1 },
          .ok true) := by
      rw [Helper.removeCIDR, hp]
      dsimp only
      rw [Helper.tree_treeFor, hrem]
      rfl
    have hin : block.canonical ∈ stored := hmem.mp hsome
    have hlookup := AList.lookup_isSome.mpr hin
    obtain ⟨hrooted, hsum⟩ := remove_rooted hparsed (hc.rooted _) hrem
    rw [Helper.step, hremove] at hstep
    cases hstep
    refine ⟨_, ?_, hc.of_setTree hm hrooted (fun w => ?_) ?_⟩
    · rw [hremove, hlookup]
    · have hstored := @Networks.sum_erase w stored block.canonical hin
      have ht := hsum w
      rw [Helper.tree_treeFor]
      omega
    · have ht := hsum fun _ => 1
      rw [Helper.tree_treeFor, count_setTree]
      unfold RadixNode.endpointCount
      rw [ht]
      push_cast
      omega

theorem step (hc : Canon h stored) (p : Parser) (op : Op) :
    ∃ h', h.step p op = some h' ∧ Canon h' (stored.step p op) := by
  cases op with
  | addCIDR cidr metadata =>
    rw [Helper.step, Networks.step]
    cases hp : p.parseCIDR cidr with
    | error err =>
      rw [Helper.addCIDR, hp]
      exact ⟨h, rfl, hc⟩
    | ok block =>
      obtain ⟨h', hadd, hc'⟩ := hc.addCIDR hp metadata
      rw [hadd]
      exact ⟨h', rfl, hc'⟩
  | removeCIDR cidr =>
    rw [Helper.step, Networks.step]
    cases hp : p.parseCIDR cidr with
    | error err =>
      rw [Helper.removeCIDR, hp]
      exact ⟨h, rfl, hc⟩
    | ok block =>
      obtain ⟨h', hrem, hc'⟩ := hc.removeCIDR hp
      rw [hrem]
      exact ⟨h', rfl, hc'⟩
  | reset => exact ⟨.new, rfl, .new⟩

theorem run (hc : Canon h stored) (p : Parser) (ops : List Op) :
    ∃ h', Lib.run (Helper.step p) h ops = some h' ∧
      Canon h' (ops.foldl (Networks.step p) stored) := by
  induction ops generalizing h stored with
  | nil => exact ⟨h, rfl, hc⟩
  | cons op ops ih =>
    obtain ⟨h₁, hstep, hc₁⟩ := hc.step p op
    obtain ⟨h', hrun, hc'⟩ := ih hc₁
    exact ⟨h', run_of_step hstep hrun, hc'⟩

theorem unique (hc : Canon h stored) (hc' : Canon h' stored')
    (hsame : ∀ n, stored.lookup n = stored'.lookup n) : h = h' := by
  have hview : ∀ v4 q, view (h.tree v4) q = view (h'.tree v4) q := by
    intro v4 q
    apply Option.ext
    rintro ⟨len, label⟩
    constructor
    · intro hv
      obtain ⟨n, hl, rfl, rfl, rfl⟩ := hc.shown v4 q len label hv
      exact (hc'.held n label ((hsame n).symm.trans hl)).2
    · intro hv
      obtain ⟨n, hl, rfl, rfl, rfl⟩ := hc'.shown v4 q len label hv
      exact (hc.held n label ((hsame n).trans hl)).2
  have htree : ∀ v4, h.tree v4 = h'.tree v4 :=
    fun v4 => (hc.rooted v4).ext (hc'.rooted v4) (hview v4)
  have hcount : h.count = h'.count := by rw [hc.counted, hc'.counted, htree, htree]
  cases h
  cases h'
  exact Helper.mk.injEq .. ▸ ⟨htree true, htree false, hcount⟩

end Canon

/-! ## After every history -/

/-- The two trees hold these networks and no node too many. -/
structure Helper.IsCanonical (h : Helper) (stored : Networks) : Prop where
  leaves : ∀ v4 q isEndpoint len label, q ≠ [] →
    (h.tree v4).subtree q = .node isEndpoint len label .nil .nil → isEndpoint = true
  depths : ∀ v4 q len label left right,
    (h.tree v4).subtree q = .node true len label left right → len = q.length
  endpoints : ∀ v4 q label,
    (∃ len left right, (h.tree v4).subtree q = .node true len label left right) ↔
      ∃ n, stored.lookup n = some label ∧ n.Canonical ∧ isIPv4 n.ip = v4 ∧ n.bits = q
  count : h.count = h.ipv4Tree.endpointCount + h.ipv6Tree.endpointCount
  memory : h.ipv4Tree.nodeCount + h.ipv6Tree.nodeCount ≤ 2 + stored.sum id

theorem Canon.isCanonical {h : Helper} {stored : Networks} (hc : Canon h stored) :
    h.IsCanonical stored := by
  have hdepths : ∀ v4 q len label left right,
      (h.tree v4).subtree q = .node true len label left right → len = q.length := by
    intro v4 q len label left right hsub
    obtain ⟨n, hl, -, rfl, rfl⟩ := hc.shown v4 q len label (view_eq_some_iff.mpr ⟨_, _, hsub⟩)
    exact (hc.held n label hl).1.length_bits.symm
  refine ⟨?_, hdepths, ?_, hc.counted, ?_⟩
  · intro v4 q isEndpoint len label hq hsub
    have htidy := (hc.rooted v4).subtree hq
    rw [hsub] at htidy
    rcases htidy.1 with hend | hne | hne
    · exact hend
    · exact absurd rfl hne
    · exact absurd rfl hne
  · intro v4 q label
    constructor
    · rintro ⟨len, left, right, hsub⟩
      obtain ⟨n, hl, hfam, hbits, -⟩ :=
        hc.shown v4 q len label (view_eq_some_iff.mpr ⟨_, _, hsub⟩)
      exact ⟨n, hl, (hc.held n label hl).1, hfam, hbits⟩
    · rintro ⟨n, hl, -, rfl, rfl⟩
      exact ⟨_, view_eq_some_iff.mp (hc.held n label hl).2⟩
  · have h4 := (hc.rooted true).nodeCount_le
    have h6 := (hc.rooted false).nodeCount_le
    have hsum := hc.sums id
    show (h.tree true).nodeCount + (h.tree false).nodeCount ≤ 2 + stored.sum id
    omega

/-- No history panics, and the helper it leaves is the canonical one of the
networks it leaves. -/
theorem trie_canonical (p : Parser) (ops : List Op) :
    ∃ h, Lib.run (Helper.step p) .new ops = some h ∧ h.IsCanonical (Networks.after p ops) ∧
      (∀ ops' h', Lib.run (Helper.step p) .new ops' = some h' →
        (∀ n, (Networks.after p ops').lookup n = (Networks.after p ops).lookup n) → h' = h) ∧
      (∀ cidr block, p.parseCIDR cidr = .ok block →
        ∃ h', h.removeCIDR p cidr =
          some (h', .ok ((Networks.after p ops).lookup block.canonical).isSome)) ∧
      (∀ cidr block cidr' block' metadata, p.parseCIDR cidr = .ok block →
        p.parseCIDR cidr' = .ok block' → block'.canonical = block.canonical →
        (Networks.after p ops).lookup block.canonical = none →
        ∃ h', h.addCIDR p cidr metadata = some (h', .ok ()) ∧
          h'.removeCIDR p cidr' = some (h, .ok true)) := by
  obtain ⟨h, hrun, hc⟩ := Canon.new.run p ops
  refine ⟨h, hrun, hc.isCanonical, ?_, ?_, ?_⟩
  · intro ops' h' hrun' hsame
    obtain ⟨h'', hrun'', hc'⟩ := Canon.new.run p ops'
    rw [hrun'] at hrun''
    cases hrun''
    exact hc'.unique hc hsame
  · intro cidr block hp
    obtain ⟨h', hrem, -⟩ := hc.removeCIDR hp
    exact ⟨h', hrem⟩
  · intro cidr block cidr' block' metadata hp hp' hsame habsent
    obtain ⟨h₁, hadd, hc₁⟩ := hc.addCIDR hp metadata
    obtain ⟨h₂, hrem, hc₂⟩ := hc₁.removeCIDR hp'
    rw [hsame, AList.lookup_insert] at hrem
    have hback : h₂ = h := by
      refine hc₂.unique hc fun n => ?_
      rw [hsame]
      by_cases hn : n = block.canonical
      · rw [hn, AList.lookup_erase]
        exact habsent.symm
      · rw [AList.lookup_erase_ne hn, AList.lookup_insert_ne hn]
    rw [hback] at hrem
    exact ⟨h₁, hadd, hrem⟩

end MiddlewareUtils.IpLookup
