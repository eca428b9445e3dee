import MiddlewareUtils.IpLookup.Tree
import MiddlewareUtils.Lib.LongestPrefix

/-!
# A radix tree is a map from bit strings

A walk reads an address bit by bit, so an address is the list of its bits
and a tree is the partial function that sends a bit string to the endpoint
it leads to, its `view`. Read that way the three operations are the obvious
ones: `insert` sets the value at its prefix, `remove` clears it, and
`contains` asks for the longest prefix of the address that has a value. The
pruning in `remove` and the empty nodes `insert` may leave are nothing to the
view.

Each walk is followed by an induction on the bits it still has to read. They
are given as a word the address continues with, which is also why no index
can be outside the address.
-/

namespace MiddlewareUtils.IpLookup

open Lib

/-! ## The bits of an address -/

def byteBits (b : Byte) : List Bool := List.ofFn fun i : Fin 8 => b.getMsbD i

def bitsOf (ip : IP) : List Bool := ip.flatMap byteBits

theorem length_byteBits (b : Byte) : (byteBits b).length = 8 := List.length_ofFn

theorem getElem?_byteBits (b : Byte) (i : ℕ) :
    (byteBits b)[i]? = if i < 8 then some (b.getMsbD i) else none := by
  rw [byteBits, List.getElem?_ofFn]
  split <;> rfl

theorem bitsOf_cons (b : Byte) (ip : IP) : bitsOf (b :: ip) = byteBits b ++ bitsOf ip :=
  List.flatMap_cons

theorem length_bitsOf (ip : IP) : (bitsOf ip).length = 8 * ip.length := by
  induction ip with
  | nil => rfl
  | cons b ip ih =>
    rw [bitsOf_cons, List.length_append, length_byteBits, ih, List.length_cons]
    omega

theorem getMsbD_eq_shift :
    ∀ (b : Byte) (r : Fin 8), b.getMsbD r = decide ((b >>> (7 - r.val)) &&& 1 ≠ 0) := by
  decide +kernel

theorem bitsOf_getElem? (ip : IP) (i : ℕ) :
    (bitsOf ip)[i]? = (bitAt ip i).map fun bit => decide (bit ≠ 0) := by
  induction ip generalizing i with
  | nil => rfl
  | cons b ip ih =>
    rw [bitsOf_cons]
    by_cases hi : i < 8
    · rw [List.getElem?_append_left (by rw [length_byteBits]; exact hi), getElem?_byteBits,
        if_pos hi, bitAt, Nat.div_eq_of_lt hi, Nat.mod_eq_of_lt hi]
      exact congrArg some (getMsbD_eq_shift b ⟨i, hi⟩)
    · have hdiv : i / 8 = (i - 8) / 8 + 1 := by omega
      have hmod : i % 8 = (i - 8) % 8 := by omega
      rw [List.getElem?_append_right (by rw [length_byteBits]; omega), length_byteBits, ih,
        bitAt, bitAt, hdiv, hmod, List.getElem?_cons_succ]

theorem bitAt_of_drop {ip : IP} {i : ℕ} {b : Bool} {w : List Bool}
    (h : b :: w <+: (bitsOf ip).drop i) :
    ∃ bit, bitAt ip i = some bit ∧ b = decide (bit ≠ 0) := by
  obtain ⟨rest, hrest⟩ := h
  have hget : (bitsOf ip)[i]? = some b := by
    rw [← Nat.add_zero i, ← List.getElem?_drop, ← hrest]
    rfl
  rw [bitsOf_getElem?] at hget
  obtain ⟨bit, hbit, heq⟩ := Option.map_eq_some_iff.mp hget
  exact ⟨bit, hbit, heq.symm⟩

theorem ite_bit {α : Type*} {b : Bool} {bit : Byte} (hb : b = decide (bit ≠ 0)) (x y : α) :
    (if bit = 0 then x else y) = if b then y else x := by
  by_cases h0 : bit = 0
  · rw [if_pos h0, hb, if_neg (by rw [decide_eq_true_eq]; exact not_not_intro h0)]
  · rw [if_neg h0, hb, if_pos (decide_eq_true h0)]

theorem drop_succ_of_drop {bs : List Bool} {i : ℕ} {b : Bool} {w : List Bool}
    (h : b :: w <+: bs.drop i) : w <+: bs.drop (i + 1) := by
  obtain ⟨rest, hrest⟩ := h
  refine ⟨rest, ?_⟩
  rw [← List.tail_drop, ← hrest]
  rfl

/-! ## The view of a tree -/

def view : RadixNode → List Bool → Option (ℕ × String)
  | .nil, _ => none
  | .node isEndpoint len label _ _, [] => if isEndpoint then some (len, label) else none
  | .node _ _ _ left right, b :: w => view (if b then right else left) w

variable {isEndpoint : Bool} {len : ℕ} {label : String} {left right : RadixNode}

theorem view_nil (w : List Bool) : view .nil w = none := by rw [view]

theorem view_cons (b : Bool) (w : List Bool) :
    view (.node isEndpoint len label left right) (b :: w) =
      view (if b then right else left) w := by rw [view]

theorem view_new (w : List Bool) : view .new w = none := by
  cases w with
  | nil => rfl
  | cons b w => cases b <;> exact view_nil w

theorem view_orNew (n : RadixNode) : view n.orNew = view n := by
  funext w
  cases n with
  | nil => rw [view_nil]; exact view_new w
  | node => rfl

theorem orNew_ne_nil (n : RadixNode) : n.orNew ≠ .nil := by
  cases n with
  | nil => nofun
  | node => nofun

theorem view_pruned (n : RadixNode) : view n.pruned = view n := by
  funext w
  unfold RadixNode.pruned
  split
  · rw [view_nil]
    cases w with
    | nil => rfl
    | cons b w => rw [view_cons, ite_self, view_nil]
  · rfl

/-! ## The three walks

`SetAt w v old new`: the view of `new` is that of `old` but for the value at
`w`. A walk sets one value below the child its bit leads to, and `child`
lifts that to the node. -/

def SetAt (w : List Bool) (v : Option (ℕ × String)) (old new : RadixNode) : Prop :=
  ∀ q, view new q = if q = w then v else view old q

theorem SetAt.child {w : List Bool} {v : Option (ℕ × String)} {b : Bool} {next : RadixNode}
    (h : SetAt w v (if b then right else left) next) :
    SetAt (b :: w) v (.node isEndpoint len label left right)
      (.node isEndpoint len label (if b then left else next) (if b then next else right)) := by
  intro q
  cases q with
  | nil => rfl
  | cons a q =>
    rw [view_cons, view_cons]
    by_cases hab : a = b
    · subst hab
      have hnext : (if a then (if a then next else right) else (if a then left else next)) =
          next := by cases a <;> rfl
      rw [hnext, h q]
      simp only [List.cons.injEq, true_and]
    · have hother : (if a then (if b then next else right) else (if b then left else next)) =
          if a then right else left := by
        cases a <;> cases b <;> first | rfl | exact absurd rfl hab
      rw [hother, if_neg fun heq => hab (List.cons.inj heq).1]

theorem insertFrom_spec {ip : IP} {prefixLen : ℕ} {metadata : String} {w : List Bool} {i : ℕ}
    {n : RadixNode} (hn : n ≠ .nil) (hw : w <+: (bitsOf ip).drop i) :
    ∃ n', RadixNode.insertFrom ip prefixLen metadata w.length i n =
        some (n', (view n w).isNone) ∧ n' ≠ .nil ∧
      SetAt w (some (((view n w).map Prod.fst).getD prefixLen, metadata)) n n' := by
  induction w generalizing i n with
  | nil =>
    cases n with
    | nil => exact absurd rfl hn
    | node isEndpoint len label left right =>
      cases isEndpoint with
      | true =>
        refine ⟨.node true len metadata left right, rfl, nofun, ?_⟩
        intro q
        cases q with
        | nil => rfl
        | cons b q => rfl
      | false =>
        refine ⟨.node true prefixLen metadata left right, rfl, nofun, ?_⟩
        intro q
        cases q with
        | nil => rfl
        | cons b q => rfl
  | cons b w ih =>
    cases n with
    | nil => exact absurd rfl hn
    | node isEndpoint len label left right =>
      obtain ⟨bit, hbit, hb⟩ := bitAt_of_drop hw
      obtain ⟨next, hnext, -, hset⟩ :=
        ih (orNew_ne_nil (if b then right else left)) (drop_succ_of_drop hw)
      rw [view_orNew] at hnext hset
      refine ⟨.node isEndpoint len label (if b then left else next)
        (if b then next else right), ?_, nofun, ?_⟩
      · rw [List.length_cons, RadixNode.insertFrom, hbit, view_cons]
        simp only [Option.bind_eq_bind, Option.bind_some]
        rw [ite_bit hb]
        cases b with
        | false =>
          simp only [Bool.false_eq_true, if_false] at hnext ⊢
          rw [hnext]
          rfl
        | true =>
          simp only [if_true] at hnext ⊢
          rw [hnext]
          rfl
      · rw [view_cons]
        apply SetAt.child
        intro q
        rw [hset q, view_orNew]

theorem removeFrom_spec {ip : IP} {w : List Bool} {i : ℕ} {n : RadixNode} (hn : n ≠ .nil)
    (hw : w <+: (bitsOf ip).drop i) :
    (view n w = none ∧ RadixNode.removeFrom ip w.length i n = some none) ∨
      ∃ n', view n w ≠ none ∧ RadixNode.removeFrom ip w.length i n = some (some n') ∧
        n' ≠ .nil ∧ SetAt w none n n' := by
  induction w generalizing i n with
  | nil =>
    cases n with
    | nil => exact absurd rfl hn
    | node isEndpoint len label left right =>
      cases isEndpoint with
      | false => exact .inl ⟨rfl, rfl⟩
      | true =>
        refine .inr ⟨.node false 0 "" left right, nofun, rfl, nofun, ?_⟩
        intro q
        cases q with
        | nil => rfl
        | cons b q => rfl
  | cons b w ih =>
    cases n with
    | nil => exact absurd rfl hn
    | node isEndpoint len label left right =>
      obtain ⟨bit, hbit, hb⟩ := bitAt_of_drop hw
      have hnext := ite_bit hb left right
      rw [List.length_cons, RadixNode.removeFrom, hbit, view_cons]
      simp only [Option.bind_eq_bind, Option.bind_some, hnext]
      cases hchild : (if b then right else left) with
      | nil => exact .inl ⟨view_nil w, rfl⟩
      | node e l m lt rt =>
        dsimp only
        rcases ih (n := .node e l m lt rt) nofun (drop_succ_of_drop hw) with
          ⟨hv, hr⟩ | ⟨n', hv, hr, -, hset⟩
        · exact .inl ⟨hv, by rw [hr]; rfl⟩
        · have hlift : SetAt (b :: w) none (.node isEndpoint len label left right)
              (.node isEndpoint len label (if b then left else n'.pruned)
                (if b then n'.pruned else right)) :=
            SetAt.child fun q => by rw [view_pruned, hset q, hchild]
          refine .inr ⟨_, hv, ?_, ?_, hlift⟩
          · rw [hr]
            simp only [Option.bind_some]
            rw [ite_bit hb]
            cases b <;> rfl
          · nofun

def foundOr (best : Match) : Option (ℕ × String) → Match
  | none => best
  | some (len, label) => ⟨true, len, label⟩

theorem record_eq (n : RadixNode) (best : Match) : n.record best = foundOr best (view n []) := by
  cases n with
  | nil => rfl
  | node isEndpoint len label left right => cases isEndpoint <;> rfl

theorem foundOr_or (best : Match) (a b : Option (ℕ × String)) :
    foundOr (foundOr best b) a = foundOr best (a.or b) := by
  cases a <;> rfl

theorem containsFrom_spec {walk : IP} {w : List Bool} {i : ℕ} {n : RadixNode} {best : Match}
    (hw : w <+: (bitsOf walk).drop i) :
    RadixNode.containsFrom walk w.length i n best =
      some (foundOr best (longestPrefix (view n) w)) := by
  induction w generalizing i n best with
  | nil =>
    rw [List.length_nil, RadixNode.containsFrom, record_eq]
    rfl
  | cons b w ih =>
    cases n with
    | nil =>
      have hnone : view .nil = fun _ => none := funext view_nil
      rw [hnone, longestPrefix_none]
      rfl
    | node isEndpoint len label left right =>
      obtain ⟨bit, hbit, hb⟩ := bitAt_of_drop hw
      have hnext := ite_bit hb left right
      have hview : (fun p => view (.node isEndpoint len label left right) (b :: p)) =
          view (if b then right else left) := funext fun p => view_cons b p
      rw [List.length_cons, RadixNode.containsFrom, hbit]
      simp only [Option.bind_eq_bind, Option.bind_some, hnext]
      rw [ih (drop_succ_of_drop hw), record_eq, foundOr_or, longestPrefix, hview]

end MiddlewareUtils.IpLookup
