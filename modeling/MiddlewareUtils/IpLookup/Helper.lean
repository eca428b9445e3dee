import Mathlib.Data.List.AList
import Mathlib.Data.List.MinMax
import MiddlewareUtils.IpLookup.Tree

/-!
# The helper, and the map it stands for

`helper.go`: two trees, one per family, and a count. Each exported function
holds the lock throughout, so a history is a list of calls. An outer `none`
is a panic.

The second half is what the helper is for, in its own words: a finite map
from networks to labels, searched from end to end for the longest network
that `IPNet.Contains` says covers the address. An IPv4-mapped network of at
least 96 bits is the IPv4 network it maps.
-/

namespace MiddlewareUtils.IpLookup

/-- `net.ParseCIDR`'s second result, with what is assumed of it. -/
structure Parser where
  parseCIDR : String → Except String IPNet
  parsed : ∀ cidr block, parseCIDR cidr = .ok block → block.Parsed

/-- `Helper`, without its lock. -/
structure Helper where
  ipv4Tree : RadixNode
  ipv6Tree : RadixNode
  count : ℤ
  deriving DecidableEq, Repr

namespace Helper

def new : Helper := ⟨.new, .new, 0⟩

def treeFor (h : Helper) (ip : IP) : RadixNode :=
  if (to4 ip).isSome then h.ipv4Tree else h.ipv6Tree

def setTree (h : Helper) (ip : IP) (tree : RadixNode) : Helper :=
  if (to4 ip).isSome then { h with ipv4Tree := tree } else { h with ipv6Tree := tree }

/-- `%q`: Lean's quoting, but for the control characters Go has letters for.
What is not ASCII counts as printable. -/
def quoted (text : String) : String :=
  let chars := text.toList.map fun c =>
    match c.toNat with
    | 7 => "\\a"
    | 8 => "\\b"
    | 11 => "\\v"
    | 12 => "\\f"
    | 13 => "\\r"
    | _ => c.quoteCore true
  "\"" ++ String.join chars ++ "\""

def parseError (cidr err : String) : String :=
  "iplookup: parse CIDR " ++ quoted cidr ++ ": " ++ err

/-- `AddCIDR`; `none` if the tree panics. -/
def addCIDR (p : Parser) (h : Helper) (cidr metadata : String) :
    Option (Helper × Except String Unit) :=
  match p.parseCIDR cidr with
  | .error err => some (h, .error (parseError cidr err))
  | .ok block => do
      let (tree, added) ← (h.treeFor block.ip).insert block metadata
      let h := h.setTree block.ip tree
      some (if added then { h with count := h.count + 1 } else h, .ok ())

/-- `RemoveCIDR`: whether the network was stored. -/
def removeCIDR (p : Parser) (h : Helper) (cidr : String) :
    Option (Helper × Except String Bool) :=
  match p.parseCIDR cidr with
  | .error err => some (h, .error (parseError cidr err))
  | .ok block => do
      match ← (h.treeFor block.ip).remove block with
      | none => some (h, .ok false)
      | some tree =>
        let h := h.setTree block.ip tree
        some ({ h with count := h.count - 1 }, .ok true)

/-- `Contains`; the argument's `none` is a nil `net.IP`. -/
def contains (h : Helper) (ipAddr : Option IP) : Option (Except String Match) :=
  match ipAddr with
  | none => some (.error "iplookup: IP address is nil")
  | some ip => do
      let m ← (h.treeFor ip).contains ip
      some (.ok m)

def reset (_ : Helper) : Helper := ⟨.new, .new, 0⟩

end Helper

/-- A call that changes the store. -/
inductive Op where
  | addCIDR (cidr metadata : String)
  | removeCIDR (cidr : String)
  | reset
  deriving DecidableEq, Repr

def Helper.step (p : Parser) (h : Helper) : Op → Option Helper
  | .addCIDR cidr metadata => (h.addCIDR p cidr metadata).map Prod.fst
  | .removeCIDR cidr => (h.removeCIDR p cidr).map Prod.fst
  | .reset => some h.reset

/-! ## The map of networks -/

/-- The network a prefix is stored as. -/
def IPNet.canonical (n : IPNet) : IPNet :=
  match to4 n.ip with
  | some v4 =>
    if n.mask.bits = 128 ∧ 96 ≤ n.mask.ones then ⟨v4, ⟨n.mask.ones - 96, 32⟩⟩ else n
  | none => n

abbrev Networks := AList fun _ : IPNet => String

def Networks.step (p : Parser) (stored : Networks) : Op → Networks
  | .addCIDR cidr metadata =>
    match p.parseCIDR cidr with
    | .error _ => stored
    | .ok block => stored.insert block.canonical metadata
  | .removeCIDR cidr =>
    match p.parseCIDR cidr with
    | .error _ => stored
    | .ok block => stored.erase block.canonical
  | .reset => ∅

/-- What a history leaves in the map. -/
def Networks.after (p : Parser) (ops : List Op) : Networks :=
  ops.foldl (Networks.step p) ∅

/-- The longest stored network that covers the address, by linear search. -/
def Networks.longest (stored : Networks) (ip : IP) : Option (Sigma fun _ : IPNet => String) :=
  (stored.entries.filter fun e => e.1.contains ip).argmax fun e => e.1.mask.ones

/-- What `Contains` is to answer. -/
def Networks.search (stored : Networks) (ip : IP) : Match :=
  match stored.longest ip with
  | none => ⟨false, 0, ""⟩
  | some e => ⟨true, e.1.mask.ones, e.2⟩

end MiddlewareUtils.IpLookup
