import MiddlewareUtils.IpLookup.Net

/-!
# The radix tree

`tree.go`. A node is a value and `nil` is a node of its own, so the loops
that follow pointers become recursions on the number of bits still to walk;
what a loop stored through `current` on the way is rebuilt on the way back.
`bitAt` indexes the address, and an index outside it is a Go panic: every
walk returns `none` for it, as for a `nil` it would dereference.

`remove` prunes from the removed node towards the root and stops at the
first node that holds something. Rebuilding does the same at every level: a
node above the one it stopped at has a child and is not empty.
-/

namespace MiddlewareUtils.IpLookup

/-- `*radixNode`: `nil`, or one bit of a walk. -/
inductive RadixNode where
  | nil
  | node (isEndpoint : Bool) (prefixLen : ℕ) (metadata : String) (left right : RadixNode)
  deriving DecidableEq, Repr

/-- What a lookup answers: found, the prefix length and the label. -/
structure Match where
  found : Bool
  prefixLen : ℕ
  metadata : String
  deriving DecidableEq, Repr

/-- `&radixNode{}`. -/
def RadixNode.new : RadixNode := .node false 0 "" .nil .nil

def RadixNode.orNew : RadixNode → RadixNode
  | .nil => .new
  | n => n

/-- `bitAt(walk, pos)`, most significant bit of a byte first. -/
def bitAt (walk : IP) (pos : ℕ) : Option Byte :=
  (walk[pos / 8]?).map fun b : Byte => (b >>> (7 - pos % 8)) &&& 1

/-- The walk of an address and how many bits it may take. -/
def familyWalk (ip : IP) : IP × ℕ :=
  match to4 ip with
  | some v4 => (v4, 32)
  | none => (ip, 128)

/-- The walk of a network and the prefix length to store. -/
def prefixWalk (cidr : IPNet) : IP × ℕ :=
  let walk := (familyWalk cidr.ip).1
  let ones := cidr.mask.ones
  if (to4 cidr.ip).isSome ∧ cidr.mask.bits = 128 ∧ 96 ≤ ones then (walk, ones - 96)
  else (walk, ones)

namespace RadixNode

/-- The loop of `insert` at bit `i`, with this many bits to go. -/
def insertFrom (ip : IP) (prefixLen : ℕ) (metadata : String) :
    ℕ → ℕ → RadixNode → Option (RadixNode × Bool)
  | _, _, .nil => none
  | 0, _, .node isEndpoint len _ left right =>
    if isEndpoint then some (.node isEndpoint len metadata left right, false)
    else some (.node true prefixLen metadata left right, true)
  | n + 1, i, .node isEndpoint len label left right => do
      let bit ← bitAt ip i
      if bit = 0 then
        let (left, added) ← insertFrom ip prefixLen metadata n (i + 1) left.orNew
        some (.node isEndpoint len label left right, added)
      else
        let (right, added) ← insertFrom ip prefixLen metadata n (i + 1) right.orNew
        some (.node isEndpoint len label left right, added)

def insert (root : RadixNode) (cidr : IPNet) (metadata : String) : Option (RadixNode × Bool) :=
  let (ip, prefixLen) := prefixWalk cidr
  insertFrom ip prefixLen metadata prefixLen 0 root

def record : RadixNode → Match → Match
  | .node true len label _ _, _ => ⟨true, len, label⟩
  | _, best => best

def containsFrom (walk : IP) : ℕ → ℕ → RadixNode → Match → Option Match
  | 0, _, current, best => some (current.record best)
  | _ + 1, _, .nil, best => some best
  | n + 1, i, .node isEndpoint len label left right, best => do
      let best := record (.node isEndpoint len label left right) best
      let bit ← bitAt walk i
      containsFrom walk n (i + 1) (if bit = 0 then left else right) best

def contains (root : RadixNode) (ip : IP) : Option Match :=
  let (walk, maxPrefixLen) := familyWalk ip
  containsFrom walk maxPrefixLen 0 root ⟨false, 0, ""⟩

/-- The pruning loop at one node: an empty leaf is dropped. -/
def pruned : RadixNode → RadixNode
  | .node false _ _ .nil .nil => .nil
  | n => n

/-- The walk of `remove` and the pruning on the way back; the inner `none`
is `false`, with the tree untouched. -/
def removeFrom (ip : IP) : ℕ → ℕ → RadixNode → Option (Option RadixNode)
  | _, _, .nil => none
  | 0, _, .node isEndpoint _ _ left right =>
    if isEndpoint then some (some (.node false 0 "" left right)) else some none
  | n + 1, i, .node isEndpoint len label left right => do
      let bit ← bitAt ip i
      let next := if bit = 0 then left else right
      match next with
      | .nil => some none
      | next =>
        match ← removeFrom ip n (i + 1) next with
        | none => some none
        | some next =>
          if bit = 0 then some (some (.node isEndpoint len label next.pruned right))
          else some (some (.node isEndpoint len label left next.pruned))

def remove (root : RadixNode) (cidr : IPNet) : Option (Option RadixNode) :=
  let (ip, prefixLen) := prefixWalk cidr
  removeFrom ip prefixLen 0 root

end RadixNode

end MiddlewareUtils.IpLookup
