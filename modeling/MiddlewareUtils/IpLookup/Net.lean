import Mathlib.Data.List.Basic

/-!
# Addresses and networks

What the lookup takes from Go's `net`: an `IP` is a slice of bytes, `To4`
recognises the two spellings of an IPv4 address, `CIDRMask` writes a mask
byte by byte and `IPNet.Contains` compares masked bytes. A mask is canonical,
so it is kept as what `Size` says of it.

`ParseCIDR` is not modelled. What is assumed of it is `IPNet.Parsed`: four
bytes and a mask of 32 bits, or sixteen bytes and one of 128, with every bit
of the address past the mask already cleared.
-/

namespace MiddlewareUtils.IpLookup

abbrev Byte := BitVec 8

abbrev IP := List Byte

/-- `ip.To4()`; `none` is `nil`. -/
def to4 (ip : IP) : Option IP :=
  if ip.length = 4 then some ip
  else if ip.length = 16 ∧ (ip.take 10).all (· == 0) ∧ ip[10]? = some 0xff ∧ ip[11]? = some 0xff
  then some (ip.drop 12)
  else none

/-- A canonical mask: `ones` leading ones out of `bits`. -/
structure IPMask where
  ones : ℕ
  bits : ℕ
  deriving DecidableEq, Repr

/-- The loop of `CIDRMask` with `n` ones to go and `k` bytes to write. -/
def cidrMask : ℕ → ℕ → List Byte
  | _, 0 => []
  | n, k + 1 =>
    if 8 ≤ n then 0xff :: cidrMask (n - 8) k
    else ~~~((0xff : Byte) >>> n) :: cidrMask 0 k

def IPMask.bytes (m : IPMask) : List Byte := cidrMask m.ones (m.bits / 8)

structure IPNet where
  ip : IP
  mask : IPMask
  deriving DecidableEq, Repr

/-- Byte by byte `&`. -/
def masked (ip : IP) (mask : List Byte) : IP := List.zipWith (· &&& ·) ip mask

namespace IPNet

/-- `networkNumberAndMask`; `none` is the pair of nils. -/
def networkNumberAndMask (n : IPNet) : Option (IP × List Byte) :=
  let found :=
    match to4 n.ip with
    | some v4 => some v4
    | none => if n.ip.length = 16 then some n.ip else none
  match found with
  | none => none
  | some ip =>
    if n.mask.bytes.length = 4 then
      if ip.length = 4 then some (ip, n.mask.bytes) else none
    else if n.mask.bytes.length = 16 then
      some (ip, if ip.length = 4 then n.mask.bytes.drop 12 else n.mask.bytes)
    else none

/-- `IPNet.Contains`. -/
def contains (n : IPNet) (ip : IP) : Bool :=
  let ip := (to4 ip).getD ip
  match n.networkNumberAndMask with
  | none => ip.length == 0
  | some (nn, m) => ip.length == nn.length && masked nn m == masked ip m

/-- What `ParseCIDR` gives. -/
structure Parsed (n : IPNet) : Prop where
  family : (n.ip.length = 4 ∧ n.mask.bits = 32) ∨ (n.ip.length = 16 ∧ n.mask.bits = 128)
  ones : n.mask.ones ≤ n.mask.bits
  masked : masked n.ip n.mask.bytes = n.ip

end IPNet

end MiddlewareUtils.IpLookup
