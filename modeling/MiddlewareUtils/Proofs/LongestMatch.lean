import MiddlewareUtils.IpLookup.Helper
import MiddlewareUtils.Lib.Run
import MiddlewareUtils.Proofs.TrieView

/-!
# A lookup is the longest-prefix match over the stored networks

Three things meet here. A mask of `n` ones compares the first `n` bits: that
is arithmetic on bytes, and from it come that a masked network is determined
by its prefix and its family, and that `IPNet.Contains` is "same family, and
the prefix begins the address". A canonical network is stored in the tree of
its family at its prefix, and the IPv4-mapped ones that `prefixWalk` remaps
are the IPv4 networks they map; that a mapped network has at least 96 ones is
not checked by the source but follows from its being masked. And a history
keeps the two trees and the finite map in step.

A covering network is then a prefix of the address with a value in the view
of the right tree, so the deepest endpoint of the walk and the longest entry
of the linear search are the same one.
-/

namespace MiddlewareUtils.IpLookup

open Lib

/-! ## Masks compare leading bits -/

def maskByte (n : ℕ) : Byte := if 8 ≤ n then 0xff else ~~~((0xff : Byte) >>> n)

theorem cidrMask_succ (n k : ℕ) : cidrMask n (k + 1) = maskByte n :: cidrMask (n - 8) k := by
  rw [cidrMask, maskByte]
  split
  · rfl
  next h =>
    have h0 : n - 8 = 0 := by omega
    rw [h0]

theorem length_cidrMask (n k : ℕ) : (cidrMask n k).length = k := by
  induction k generalizing n with
  | zero => rfl
  | succ k ih => rw [cidrMask_succ, List.length_cons, ih]

theorem getMsbD_maskByte {n i : ℕ} (hi : i < 8) : (maskByte n).getMsbD i = decide (i < n) := by
  have hsmall : ∀ (n : Fin 8) (i : Fin 8),
      (~~~((0xff : Byte) >>> n.val)).getMsbD i = decide (i.val < n.val) := by decide +kernel
  have hfull : ∀ i : Fin 8, (0xff : Byte).getMsbD i = true := by decide +kernel
  rw [maskByte]
  split
  next h => rw [hfull ⟨i, hi⟩, decide_eq_true (by omega)]
  next h => exact hsmall ⟨n, by omega⟩ ⟨i, hi⟩

theorem take_byteBits_eq_iff (n : ℕ) (x y : Byte) :
    (byteBits x).take n = (byteBits y).take n ↔
      ∀ i, i < 8 → i < n → x.getMsbD i = y.getMsbD i := by
  constructor
  · intro h i hi hn
    have hget := congrArg (fun l => l[i]?) h
    simpa only [List.getElem?_take, if_pos hn, getElem?_byteBits, if_pos hi,
      Option.some.injEq] using hget
  · intro h
    apply List.ext_getElem?
    intro i
    rw [List.getElem?_take, List.getElem?_take, getElem?_byteBits, getElem?_byteBits]
    split
    next hn =>
      split
      next hi => rw [h i hi hn]
      · rfl
    · rfl

theorem and_maskByte_eq_iff (n : ℕ) (x y : Byte) :
    x &&& maskByte n = y &&& maskByte n ↔ (byteBits x).take n = (byteBits y).take n := by
  rw [take_byteBits_eq_iff]
  constructor
  · intro h i hi hn
    have hbit := congrArg (fun z : Byte => z.getMsbD i) h
    simpa [BitVec.getMsbD_and, getMsbD_maskByte hi, hn] using hbit
  · intro h
    apply BitVec.eq_of_getMsbD_eq
    intro i hi
    rw [BitVec.getMsbD_and, BitVec.getMsbD_and, getMsbD_maskByte hi]
    by_cases hn : i < n
    · rw [h i hi hn]
    · rw [decide_eq_false hn, Bool.and_false, Bool.and_false]

theorem masked_cons (x : Byte) (a : IP) (m : Byte) (ms : List Byte) :
    masked (x :: a) (m :: ms) = (x &&& m) :: masked a ms := rfl

theorem masked_eq_iff {a b : IP} (hlen : a.length = b.length) (n : ℕ) :
    masked a (cidrMask n a.length) = masked b (cidrMask n a.length) ↔
      (bitsOf a).take n = (bitsOf b).take n := by
  induction a generalizing b n with
  | nil =>
    have hb : b = [] := List.length_eq_zero_iff.mp hlen.symm
    rw [hb]
    exact iff_of_true rfl rfl
  | cons x a ih =>
    cases b with
    | nil => cases hlen
    | cons y b =>
      have hlen' : a.length = b.length := Nat.succ.inj hlen
      rw [List.length_cons, cidrMask_succ, masked_cons, masked_cons, List.cons.injEq,
        and_maskByte_eq_iff, ih hlen', bitsOf_cons, bitsOf_cons, List.take_append,
        List.take_append, length_byteBits, length_byteBits]
      have htake : ((byteBits x).take n).length = ((byteBits y).take n).length := by
        rw [List.length_take, List.length_take, length_byteBits, length_byteBits]
      constructor
      · rintro ⟨hx, ha⟩
        rw [hx, ha]
      · intro h
        exact List.append_inj h htake

/-! ## Canonical networks -/

def IPNet.bits (n : IPNet) : List Bool := (bitsOf n.ip).take n.mask.ones

/-- The family of an address or a network's address. -/
def isIPv4 (ip : IP) : Bool := (to4 ip).isSome

/-- A parsed network that is not an IPv4 network written in sixteen bytes. -/
structure IPNet.Canonical (n : IPNet) : Prop extends n.Parsed where
  native : n.ip.length = 16 → isIPv4 n.ip = false

theorem to4_of_length {ip : IP} (h : ip.length = 4) : to4 ip = some ip := if_pos h

theorem to4_mapped {ip v4 : IP} (h : ip.length = 16) (hv : to4 ip = some v4) :
    v4 = ip.drop 12 ∧ ip[11]? = some 0xff := by
  rw [to4, if_neg (by omega)] at hv
  split at hv
  next hc =>
    injection hv with hv
    exact ⟨hv.symm, hc.2.2.2⟩
  · cases hv

namespace IPNet

variable {n n' : IPNet}

theorem Parsed.bits_eq (hn : n.Parsed) : n.mask.bits = 8 * n.ip.length := by
  rcases hn.family with ⟨hl, hb⟩ | ⟨hl, hb⟩ <;> omega

theorem Parsed.length_bits (hn : n.Parsed) : n.bits.length = n.mask.ones := by
  rw [bits, List.length_take, length_bitsOf, ← hn.bits_eq]
  exact min_eq_left hn.ones

theorem Parsed.bytes_eq (hn : n.Parsed) : n.mask.bytes = cidrMask n.mask.ones n.ip.length := by
  rw [IPMask.bytes, hn.bits_eq, Nat.mul_div_cancel_left _ (by decide)]

theorem Canonical.isIPv4_iff (hn : n.Canonical) : isIPv4 n.ip = true ↔ n.ip.length = 4 := by
  constructor
  · intro h
    rcases hn.family with ⟨hl, -⟩ | ⟨hl, -⟩
    · exact hl
    · rw [hn.native hl] at h
      cases h
  · intro h
    rw [isIPv4, to4_of_length h]
    rfl

theorem Canonical.length_eq (hn : n.Canonical) :
    n.ip.length = if isIPv4 n.ip then 4 else 16 := by
  rcases hn.family with ⟨hl, -⟩ | ⟨hl, -⟩
  · rw [if_pos (hn.isIPv4_iff.mpr hl), hl]
  · rw [if_neg (by rw [hn.native hl]; nofun), hl]

theorem Canonical.ext_bits (hn : n.Canonical) (hn' : n'.Canonical)
    (hfam : isIPv4 n.ip = isIPv4 n'.ip) (hbits : n.bits = n'.bits) : n = n' := by
  have hlen : n.ip.length = n'.ip.length := by rw [hn.length_eq, hn'.length_eq, hfam]
  have hones : n.mask.ones = n'.mask.ones := by
    rw [← hn.length_bits, ← hn'.length_bits, hbits]
  have hmask : n.mask = n'.mask := by
    have hwidth : n.mask.bits = n'.mask.bits := by rw [hn.bits_eq, hn'.bits_eq, hlen]
    cases hm : n.mask with
    | mk ones width =>
      cases hm' : n'.mask with
      | mk ones' width' =>
        rw [hm, hm'] at hones hwidth
        dsimp only at hones hwidth
        rw [hones, hwidth]
  have hip : n.ip = n'.ip := by
    rw [bits, bits, ← hones] at hbits
    have hmasked := (masked_eq_iff hlen n.mask.ones).mpr hbits
    rw [← hn.bytes_eq, hn.masked] at hmasked
    rw [hmasked, hmask]
    exact hn'.masked
  cases n with
  | mk ip mask =>
    cases n' with
    | mk ip' mask' =>
      dsimp only at hip hmask
      rw [hip, hmask]

/-! ## The network a prefix is stored as -/

theorem drop_cidrMask (j n k : ℕ) : (cidrMask (8 * j + n) (j + k)).drop j = cidrMask n k := by
  induction j with
  | zero => simp only [Nat.mul_zero, Nat.zero_add, List.drop_zero]
  | succ j ih =>
    have hn : 8 * (j + 1) + n - 8 = 8 * j + n := by omega
    have hk : j + 1 + k = (j + k) + 1 := by omega
    rw [hk, cidrMask_succ, hn, List.drop_succ_cons, ih]

theorem le_of_cidrMask_full {n k j : ℕ} (h : (cidrMask n k)[j]? = some 0xff) :
    8 * (j + 1) ≤ n := by
  induction k generalizing n j with
  | zero => cases h
  | succ k ih =>
    rw [cidrMask_succ] at h
    cases j with
    | zero =>
      injection h with h
      have hbit := getMsbD_maskByte (n := n) (show 7 < 8 by decide)
      rw [h] at hbit
      have h7 : 7 < n := of_decide_eq_true hbit.symm
      omega
    | succ j =>
      have := ih h
      omega

theorem Parsed.mapped_ones (hn : n.Parsed) (hlen : n.ip.length = 16)
    (hmap : isIPv4 n.ip = true) : 96 ≤ n.mask.ones := by
  obtain ⟨v4, hv⟩ := Option.isSome_iff_exists.mp hmap
  obtain ⟨-, h11⟩ := to4_mapped hlen hv
  have hmasked := hn.masked
  rw [hn.bytes_eq, hlen] at hmasked
  have hget : (IpLookup.masked n.ip (cidrMask n.mask.ones 16))[11]? = some 0xff := by
    rw [hmasked, h11]
  rw [IpLookup.masked, List.getElem?_zipWith, h11] at hget
  cases hm : (cidrMask n.mask.ones 16)[11]? with
  | none => rw [hm] at hget; cases hget
  | some m =>
    rw [hm] at hget
    have hall : ∀ m : Byte, 0xff &&& m = 0xff → m = 0xff := by decide +kernel
    injection hget with hget
    rw [hall m hget] at hm
    exact le_of_cidrMask_full hm

theorem canonical_of_length (h : n.ip.length = 4) (hb : n.mask.bits = 32) :
    n.canonical = n := by
  rw [canonical, to4_of_length h]
  exact if_neg (by omega)

theorem canonical_of_mapped {v4 : IP} (hv : to4 n.ip = some v4)
    (h : n.mask.bits = 128 ∧ 96 ≤ n.mask.ones) :
    n.canonical = ⟨v4, ⟨n.mask.ones - 96, 32⟩⟩ := by
  rw [canonical, hv]
  exact if_pos h

theorem canonical_of_native (hv : to4 n.ip = none) : n.canonical = n := by
  rw [canonical, hv]

theorem Parsed.mapped_canonical (hn : n.Parsed) (hlen : n.ip.length = 16)
    (hones : 96 ≤ n.mask.ones) : Canonical ⟨n.ip.drop 12, ⟨n.mask.ones - 96, 32⟩⟩ := by
  have hl : (n.ip.drop 12).length = 4 := by rw [List.length_drop, hlen]
  have h128 : n.mask.ones ≤ 128 := by
    have h := hn.ones
    rw [hn.bits_eq, hlen] at h
    exact h
  refine ⟨⟨.inl ⟨hl, rfl⟩, by dsimp only; omega, ?_⟩, ?_⟩
  · have hmasked := congrArg (List.drop 12) hn.masked
    rw [hn.bytes_eq, hlen, IpLookup.masked, List.drop_zipWith] at hmasked
    have hdrop : (cidrMask n.mask.ones 16).drop 12 = cidrMask (n.mask.ones - 96) 4 := by
      have h := drop_cidrMask 12 (n.mask.ones - 96) 4
      rw [show 8 * 12 + (n.mask.ones - 96) = n.mask.ones by omega] at h
      exact h
    have hbytes : IPMask.bytes ⟨n.mask.ones - 96, 32⟩ = cidrMask (n.mask.ones - 96) 4 :=
      congrArg (cidrMask _) (show 32 / 8 = 4 by decide)
    rw [hdrop, ← hbytes] at hmasked
    exact hmasked
  · intro h
    dsimp only at h
    omega

theorem Parsed.canonical_spec (hn : n.Parsed) :
    n.canonical.Canonical ∧ isIPv4 n.ip = isIPv4 n.canonical.ip ∧
      prefixWalk n = (n.canonical.ip, n.canonical.mask.ones) := by
  rcases hn.family with ⟨hl, hb⟩ | ⟨hl, hb⟩
  · rw [canonical_of_length hl hb]
    refine ⟨⟨hn, fun h => by omega⟩, rfl, ?_⟩
    rw [prefixWalk, familyWalk, to4_of_length hl]
    exact if_neg (by omega)
  · cases hv : to4 n.ip with
    | none =>
      have h4 : isIPv4 n.ip = false := by rw [isIPv4, hv]; rfl
      rw [canonical_of_native hv]
      refine ⟨⟨hn, fun _ => h4⟩, rfl, ?_⟩
      rw [prefixWalk, familyWalk, hv]
      rfl
    | some v4 =>
      have h4 : isIPv4 n.ip = true := by rw [isIPv4, hv]; rfl
      have hones := hn.mapped_ones hl h4
      have hv4 := (to4_mapped hl hv).1
      have hcanon := hn.mapped_canonical hl hones
      rw [canonical_of_mapped hv ⟨hb, hones⟩, hv4]
      refine ⟨hcanon, ?_, ?_⟩
      · rw [h4]
        exact (hcanon.isIPv4_iff.mpr (by rw [List.length_drop, hl])).symm
      · rw [prefixWalk, familyWalk, hv, hv4]
        exact if_pos ⟨rfl, hb, hones⟩

/-! ## `IPNet.Contains` -/

theorem length_getD_to4 {ip : IP} (hip : ip.length = 4 ∨ ip.length = 16) :
    ((to4 ip).getD ip).length = if isIPv4 ip then 4 else 16 := by
  rcases hip with h | h
  · rw [isIPv4, to4_of_length h]
    exact h
  · cases hv : to4 ip with
    | none => rw [isIPv4, hv]; exact h
    | some v4 =>
      rw [isIPv4, hv, (to4_mapped h hv).1]
      show (ip.drop 12).length = 4
      rw [List.length_drop, h]

theorem Canonical.networkNumberAndMask_eq (hn : n.Canonical) :
    n.networkNumberAndMask = some (n.ip, cidrMask n.mask.ones n.ip.length) := by
  have hlen : n.mask.bytes.length = n.ip.length := by rw [hn.bytes_eq, length_cidrMask]
  rw [networkNumberAndMask]
  rcases hn.family with ⟨hl, -⟩ | ⟨hl, -⟩
  · rw [to4_of_length hl]
    dsimp only
    rw [if_pos (hlen.trans hl), if_pos hl, hn.bytes_eq]
  · have hv : to4 n.ip = none := by
      have h := hn.native hl
      rw [isIPv4] at h
      exact Option.not_isSome_iff_eq_none.mp (by rw [h]; nofun)
    rw [hv]
    dsimp only
    rw [if_pos hl]
    dsimp only
    rw [if_neg (by omega), if_pos (hlen.trans hl), if_neg (by omega), hn.bytes_eq]

theorem Canonical.contains_iff (hn : n.Canonical) {ip : IP}
    (hip : ip.length = 4 ∨ ip.length = 16) :
    n.contains ip = true ↔ isIPv4 ip = isIPv4 n.ip ∧ n.bits <+: bitsOf ((to4 ip).getD ip) := by
  rw [contains, hn.networkNumberAndMask_eq]
  dsimp only
  rw [Bool.and_eq_true, beq_iff_eq, beq_iff_eq]
  have hlen := length_getD_to4 hip
  constructor
  · rintro ⟨hl, hmasked⟩
    have hfam : isIPv4 ip = isIPv4 n.ip := by
      rw [hlen, hn.length_eq] at hl
      cases h : isIPv4 ip <;> cases h' : isIPv4 n.ip <;> rw [h, h'] at hl <;>
        first | rfl | cases hl
    refine ⟨hfam, ?_⟩
    rw [bits, (masked_eq_iff hl.symm n.mask.ones).mp hmasked]
    exact List.take_prefix _ _
  · rintro ⟨hfam, hpre⟩
    have hl : n.ip.length = ((to4 ip).getD ip).length := by rw [hlen, hn.length_eq, hfam]
    refine ⟨hl.symm, (masked_eq_iff hl n.mask.ones).mpr ?_⟩
    rw [List.prefix_iff_eq_take, hn.length_bits] at hpre
    exact hpre

theorem Canonical.covering_unique (hn : n.Canonical) {ip : IP}
    (hip : ip.length = 4 ∨ ip.length = 16) (hn' : n'.Canonical)
    (hcov : n.contains ip = true) (hcov' : n'.contains ip = true)
    (hones : n.mask.ones = n'.mask.ones) : n = n' := by
  obtain ⟨hf, hpre⟩ := (hn.contains_iff hip).mp hcov
  obtain ⟨hf', hpre'⟩ := (hn'.contains_iff hip).mp hcov'
  apply hn.ext_bits hn' (hf.symm.trans hf')
  have hlen : n.bits.length = n'.bits.length := by rw [hn.length_bits, hn'.length_bits, hones]
  rw [List.prefix_iff_eq_take] at hpre hpre'
  rw [hpre, hpre', hlen]

end IPNet

/-! ## Trees and map in step -/

def Helper.tree (h : Helper) (v4 : Bool) : RadixNode := if v4 then h.ipv4Tree else h.ipv6Tree

/-- The trees show exactly the stored networks, each at its prefix in the
tree of its family. -/
structure Mirrors (h : Helper) (stored : Networks) : Prop where
  roots : ∀ v4, h.tree v4 ≠ .nil
  held : ∀ n label, stored.lookup n = some label →
    n.Canonical ∧ view (h.tree (isIPv4 n.ip)) n.bits = some (n.mask.ones, label)
  shown : ∀ v4 q len label, view (h.tree v4) q = some (len, label) →
    ∃ n, stored.lookup n = some label ∧ isIPv4 n.ip = v4 ∧ n.bits = q ∧ n.mask.ones = len

section Mirrors

variable {h h' : Helper} {stored stored' : Networks} {n : IPNet} {p : Parser}

theorem Helper.tree_treeFor (h : Helper) (ip : IP) : h.treeFor ip = h.tree (isIPv4 ip) := rfl

theorem Helper.tree_setTree (h : Helper) (ip : IP) (t : RadixNode) (v4 : Bool) :
    (h.setTree ip t).tree v4 = if v4 = isIPv4 ip then t else h.tree v4 := by
  rw [setTree, isIPv4]
  cases (to4 ip).isSome <;> cases v4 <;> rfl

theorem mirrors_new : Mirrors .new ∅ := by
  have hview : ∀ v4 q, view (Helper.new.tree v4) q = none := by
    intro v4 q
    cases v4 <;> exact view_new q
  refine ⟨fun v4 => by cases v4 <;> nofun, ?_, ?_⟩
  · intro n label hl
    cases hl
  · intro v4 q len label hv
    rw [hview] at hv
    cases hv

theorem Mirrors.update (hm : Mirrors h stored) (hn : n.Canonical) {o : Option String}
    (hroots : ∀ v4, h'.tree v4 ≠ .nil)
    (hview : ∀ v4 q, view (h'.tree v4) q =
      if v4 = isIPv4 n.ip ∧ q = n.bits then o.map fun label => (n.mask.ones, label)
      else view (h.tree v4) q)
    (hstored : ∀ n', stored'.lookup n' = if n' = n then o else stored.lookup n') :
    Mirrors h' stored' := by
  refine ⟨hroots, ?_, ?_⟩
  · intro n' label hl
    rw [hstored] at hl
    split at hl
    next heq =>
      subst heq
      refine ⟨hn, ?_⟩
      rw [hview, if_pos ⟨rfl, rfl⟩, hl, Option.map_some]
    next hne =>
      obtain ⟨hn', hv⟩ := hm.held n' label hl
      refine ⟨hn', ?_⟩
      rw [hview, if_neg fun hkey => hne (hn'.ext_bits hn hkey.1 hkey.2), hv]
  · intro v4 q len label hv
    rw [hview] at hv
    split at hv
    next hkey =>
      obtain ⟨label', ho, heq⟩ := Option.map_eq_some_iff.mp hv
      injection heq with hones hlabel
      refine ⟨n, ?_, hkey.1.symm, hkey.2.symm, hones⟩
      rw [hstored, if_pos rfl, ho, hlabel]
    next hkey =>
      obtain ⟨n', hl, hfam, hbits, hones⟩ := hm.shown v4 q len label hv
      refine ⟨n', ?_, hfam, hbits, hones⟩
      rw [hstored, if_neg ?_, hl]
      intro heq
      subst heq
      exact hkey ⟨hfam.symm, hbits.symm⟩

theorem view_setTree {ip : IP} {t : RadixNode} {v : Option (ℕ × String)}
    (hfam : isIPv4 ip = isIPv4 n.ip) (hset : SetAt n.bits v (h.tree (isIPv4 ip)) t) (v4 : Bool)
    (q : List Bool) :
    view ((h.setTree ip t).tree v4) q =
      if v4 = isIPv4 n.ip ∧ q = n.bits then v else view (h.tree v4) q := by
  rw [Helper.tree_setTree, hfam]
  by_cases hv4 : v4 = isIPv4 n.ip
  · rw [if_pos hv4, hset q, hfam, ← hv4]
    simp only [true_and]
  · rw [if_neg hv4, if_neg fun hkey => hv4 hkey.1]

theorem setTree_ne_nil {ip : IP} {t : RadixNode} (hm : Mirrors h stored) (ht : t ≠ .nil)
    (v4 : Bool) : (h.setTree ip t).tree v4 ≠ .nil := by
  rw [Helper.tree_setTree]
  split
  · exact ht
  · exact hm.roots v4

theorem IPNet.Parsed.walk (hn : n.Parsed) :
    n.canonical.bits <+: (bitsOf (prefixWalk n).1).drop 0 ∧
      (prefixWalk n).2 = n.canonical.bits.length := by
  obtain ⟨hc, -, hw⟩ := hn.canonical_spec
  rw [hw, hc.length_bits]
  exact ⟨List.take_prefix _ _, rfl⟩

theorem insert_spec (hn : n.Parsed) {t : RadixNode} (ht : t ≠ .nil) (metadata : String) :
    ∃ t', t.insert n metadata = some (t', (view t n.canonical.bits).isNone) ∧ t' ≠ .nil ∧
      SetAt n.canonical.bits (some (((view t n.canonical.bits).map Prod.fst).getD
        n.canonical.mask.ones, metadata)) t t' := by
  obtain ⟨hwalk, hlen⟩ := hn.walk
  have hones := hn.canonical_spec.1.length_bits
  rw [← hones, ← hlen, RadixNode.insert]
  obtain ⟨t', hins, hrest⟩ := insertFrom_spec ht hwalk
  refine ⟨t', ?_, hrest⟩
  rw [← hins, ← hlen]

theorem remove_spec (hn : n.Parsed) {t : RadixNode} (ht : t ≠ .nil) :
    (view t n.canonical.bits = none ∧ t.remove n = some none) ∨
      ∃ t', view t n.canonical.bits ≠ none ∧ t.remove n = some (some t') ∧ t' ≠ .nil ∧
        SetAt n.canonical.bits none t t' := by
  obtain ⟨hwalk, hlen⟩ := hn.walk
  have h := removeFrom_spec ht hwalk
  rw [← hlen] at h
  exact h

theorem Mirrors.stored_length (hm : Mirrors h stored) (hn : n.Canonical) :
    ((view (h.tree (isIPv4 n.ip)) n.bits).map Prod.fst).getD n.mask.ones = n.mask.ones := by
  cases hv : view (h.tree (isIPv4 n.ip)) n.bits with
  | none => rfl
  | some v =>
    obtain ⟨n', hl, -, hbits, hones⟩ := hm.shown _ _ v.1 v.2 hv
    have hn' := (hm.held n' v.2 hl).1
    show v.1 = n.mask.ones
    rw [← hones, ← hn'.length_bits, hbits, hn.length_bits]

theorem Mirrors.addCIDR (hm : Mirrors h stored) (p : Parser) (cidr metadata : String) :
    ∃ h', h.step p (.addCIDR cidr metadata) = some h' ∧
      Mirrors h' (stored.step p (.addCIDR cidr metadata)) := by
  rw [Helper.step, Helper.addCIDR, Networks.step]
  cases hp : p.parseCIDR cidr with
  | error err => exact ⟨h, rfl, hm⟩
  | ok block =>
    have hparsed := p.parsed cidr block hp
    obtain ⟨hc, hfam, -⟩ := hparsed.canonical_spec
    obtain ⟨t, hins, ht, hset⟩ := insert_spec hparsed (hm.roots (isIPv4 block.ip)) metadata
    have hlen := hm.stored_length hc
    rw [← hfam] at hlen
    rw [hlen] at hset
    dsimp only
    rw [Helper.tree_treeFor, hins]
    refine ⟨_, rfl, ?_⟩
    -- the count aside, the helper is the one with the new tree
    have hmirrors : Mirrors (h.setTree block.ip t) (stored.insert block.canonical metadata) := by
      apply hm.update (o := some metadata) hc (setTree_ne_nil hm ht) (view_setTree hfam hset)
      intro n'
      split
      next heq => rw [heq, AList.lookup_insert]
      next hne => rw [AList.lookup_insert_ne hne]
    split
    · exact ⟨hmirrors.roots, hmirrors.held, hmirrors.shown⟩
    · exact hmirrors

theorem Mirrors.removeCIDR (hm : Mirrors h stored) (p : Parser) (cidr : String) :
    ∃ h', h.step p (.removeCIDR cidr) = some h' ∧
      Mirrors h' (stored.step p (.removeCIDR cidr)) := by
  rw [Helper.step, Helper.removeCIDR, Networks.step]
  cases hp : p.parseCIDR cidr with
  | error err => exact ⟨h, rfl, hm⟩
  | ok block =>
    have hparsed := p.parsed cidr block hp
    obtain ⟨hc, hfam, -⟩ := hparsed.canonical_spec
    have hstored : ∀ n', (stored.erase block.canonical).lookup n' =
        if n' = block.canonical then none else stored.lookup n' := by
      intro n'
      split
      next heq => rw [heq, AList.lookup_erase]
      next hne => rw [AList.lookup_erase_ne hne]
    dsimp only
    rw [Helper.tree_treeFor]
    rcases remove_spec hparsed (hm.roots (isIPv4 block.ip)) with
      ⟨hnone, hrem⟩ | ⟨t, -, hrem, ht, hset⟩
    · rw [hrem]
      refine ⟨h, rfl, hm.update (o := none) hc hm.roots ?_ hstored⟩
      intro v4 q
      split
      next hkey => rw [hkey.1, hkey.2, ← hfam, hnone]; rfl
      · rfl
    · rw [hrem]
      have hmirrors := hm.update (o := none) hc (setTree_ne_nil hm ht)
        (view_setTree hfam hset) hstored
      exact ⟨_, rfl, hmirrors.roots, hmirrors.held, hmirrors.shown⟩

theorem Mirrors.step (hm : Mirrors h stored) (p : Parser) (op : Op) :
    ∃ h', h.step p op = some h' ∧ Mirrors h' (stored.step p op) := by
  cases op with
  | addCIDR cidr metadata => exact hm.addCIDR p cidr metadata
  | removeCIDR cidr => exact hm.removeCIDR p cidr
  | reset => exact ⟨.new, rfl, mirrors_new⟩

theorem Mirrors.run (hm : Mirrors h stored) (p : Parser) (ops : List Op) :
    ∃ h', Lib.run (Helper.step p) h ops = some h' ∧
      Mirrors h' (ops.foldl (Networks.step p) stored) := by
  induction ops generalizing h stored with
  | nil => exact ⟨h, rfl, hm⟩
  | cons op ops ih =>
    obtain ⟨h₁, hstep, hm₁⟩ := hm.step p op
    obtain ⟨h', hrun, hm'⟩ := ih hm₁
    refine ⟨h', ?_, hm'⟩
    show (h.step p op).bind (fun s => Lib.run (Helper.step p) s ops) = some h'
    rw [hstep]
    exact hrun

/-! ## The lookup -/

theorem contains_eq {ip : IP} (hip : ip.length = 4 ∨ ip.length = 16) :
    h.contains (some ip) = some (.ok (foundOr ⟨false, 0, ""⟩
      (longestPrefix (view (h.tree (isIPv4 ip))) (bitsOf ((to4 ip).getD ip))))) := by
  have hwalk : familyWalk ip = ((to4 ip).getD ip, (bitsOf ((to4 ip).getD ip)).length) := by
    rw [length_bitsOf, IPNet.length_getD_to4 hip, familyWalk, isIPv4]
    cases to4 ip <;> rfl
  rw [Helper.contains, Helper.tree_treeFor, RadixNode.contains, hwalk]
  dsimp only
  have hw : bitsOf ((to4 ip).getD ip) <+: (bitsOf ((to4 ip).getD ip)).drop 0 :=
    List.prefix_refl _
  rw [containsFrom_spec hw]
  rfl

theorem Mirrors.of_mem (hm : Mirrors h stored) {e : Sigma fun _ : IPNet => String}
    (he : e ∈ stored.entries) :
    stored.lookup e.1 = some e.2 ∧ e.1.Canonical ∧
      view (h.tree (isIPv4 e.1.ip)) e.1.bits = some (e.1.mask.ones, e.2) := by
  have hl : stored.lookup e.1 = some e.2 := AList.mem_lookup_iff.mpr he
  exact ⟨hl, hm.held e.1 e.2 hl⟩

theorem Mirrors.search_eq (hm : Mirrors h stored) {ip : IP}
    (hip : ip.length = 4 ∨ ip.length = 16) :
    foundOr ⟨false, 0, ""⟩
      (longestPrefix (view (h.tree (isIPv4 ip))) (bitsOf ((to4 ip).getD ip))) =
        stored.search ip := by
  rw [Networks.search]
  cases hdeep : longestPrefix (view (h.tree (isIPv4 ip))) (bitsOf ((to4 ip).getD ip)) with
  | none =>
    have hnone : stored.longest ip = none := by
      rw [Networks.longest, List.argmax_eq_none, List.filter_eq_nil_iff]
      intro e he hcov
      obtain ⟨-, hc, hv⟩ := hm.of_mem he
      obtain ⟨hfam, hpre⟩ := (hc.contains_iff hip).mp hcov
      rw [← hfam, longestPrefix_eq_none.mp hdeep _ hpre] at hv
      cases hv
    rw [hnone]
    rfl
  | some v =>
    obtain ⟨q, hq, hv, hmax⟩ := longestPrefix_eq_some hdeep
    obtain ⟨n, hl, hfam, rfl, hones⟩ := hm.shown _ _ v.1 v.2 hv
    have hc := (hm.held n v.2 hl).1
    have hcov : n.contains ip = true := (hc.contains_iff hip).mpr ⟨hfam.symm, hq⟩
    have hmem : (⟨n, v.2⟩ : Sigma fun _ : IPNet => String) ∈
        stored.entries.filter fun e => e.1.contains ip :=
      List.mem_filter.mpr ⟨AList.mem_lookup_iff.mp hl, hcov⟩
    cases hlong : stored.longest ip with
    | none =>
      rw [Networks.longest, List.argmax_eq_none] at hlong
      rw [hlong] at hmem
      cases hmem
    | some e =>
      obtain ⟨he, hecov⟩ := List.mem_filter.mp (List.argmax_mem hlong)
      obtain ⟨hel, hec, hev⟩ := hm.of_mem he
      have hle : n.mask.ones ≤ e.1.mask.ones :=
        List.le_of_mem_argmax (f := fun e : Sigma fun _ : IPNet => String => e.1.mask.ones)
          hmem hlong
      obtain ⟨hefam, hepre⟩ := (hec.contains_iff hip).mp hecov
      -- a longer covering entry would be a longer prefix with a value
      have hge : e.1.mask.ones ≤ n.mask.ones := by
        by_contra hlt
        have hlen : n.bits.length < e.1.bits.length := by
          rw [hc.length_bits, hec.length_bits]
          omega
        rw [← hefam, hmax _ hepre hlen] at hev
        cases hev
      have heq : e.1 = n := hec.covering_unique hip hc hecov hcov (le_antisymm hge hle)
      rw [heq, hl] at hel
      injection hel with hlabel
      show (⟨true, v.1, v.2⟩ : Match) = ⟨true, e.1.mask.ones, e.2⟩
      rw [heq, hones, hlabel]

end Mirrors

/-- After every history a lookup panics on no index, answers what the linear
search of the stored networks answers, and stays in the address's family. -/
theorem contains_longest_match (p : Parser) (ops : List Op) (ip : IP)
    (hip : ip.length = 4 ∨ ip.length = 16) :
    ∃ h, Lib.run (Helper.step p) .new ops = some h ∧
      h.contains (some ip) = some (.ok ((Networks.after p ops).search ip)) ∧
      ∀ n label, (Networks.after p ops).longest ip = some ⟨n, label⟩ →
        (Networks.after p ops).lookup n = some label ∧ n.contains ip = true ∧
          isIPv4 n.ip = isIPv4 ip := by
  obtain ⟨h, hrun, hm⟩ := mirrors_new.run p ops
  refine ⟨h, hrun, ?_, ?_⟩
  · rw [contains_eq hip, hm.search_eq hip]
    rfl
  · intro n label hlong
    obtain ⟨he, hcov⟩ := List.mem_filter.mp (List.argmax_mem hlong)
    obtain ⟨hl, hc, -⟩ := hm.of_mem he
    exact ⟨hl, hcov, ((hc.contains_iff hip).mp hcov).1.symm⟩

/-- `10.0.0.0/8`, `::ffff:10.1.2.0/120` and `::/0`, as `ParseCIDR` gives them. -/
def threeNetworks : Parser where
  parseCIDR cidr :=
    if cidr = "10.0.0.0/8" then .ok ⟨[10, 0, 0, 0], ⟨8, 32⟩⟩
    else if cidr = "::ffff:10.1.2.0/120" then
      .ok ⟨[0, 0, 0, 0, 0, 0, 0, 0, 0, 0, 0xff, 0xff, 10, 1, 2, 0], ⟨120, 128⟩⟩
    else if cidr = "::/0" then
      .ok ⟨[0, 0, 0, 0, 0, 0, 0, 0, 0, 0, 0, 0, 0, 0, 0, 0], ⟨0, 128⟩⟩
    else .error "invalid CIDR address"
  parsed := by
    intro cidr block h
    split at h
    · injection h with h
      subst h
      exact ⟨.inl ⟨rfl, rfl⟩, by decide, by decide⟩
    · split at h
      · injection h with h
        subst h
        exact ⟨.inr ⟨rfl, rfl⟩, by decide, by decide⟩
      · split at h
        · injection h with h
          subst h
          exact ⟨.inr ⟨rfl, rfl⟩, by decide, by decide⟩
        · cases h

/-- `::ffff:10.1.2.3`, in sixteen bytes. -/
def mappedAddress : IP := [0, 0, 0, 0, 0, 0, 0, 0, 0, 0, 0xff, 0xff, 10, 1, 2, 3]

def threeAdds : List Op :=
  [.addCIDR "::/0" "any", .addCIDR "10.0.0.0/8" "ten", .addCIDR "::ffff:10.1.2.0/120" "mapped"]

theorem contains_longest_match_mapped :
    (Networks.after threeNetworks threeAdds).search mappedAddress = ⟨true, 24, "mapped"⟩ ∧
    ∃ h, Lib.run (Helper.step threeNetworks) .new threeAdds = some h ∧
      h.contains (some mappedAddress) =
        some (.ok ((Networks.after threeNetworks threeAdds).search mappedAddress)) ∧
      ∀ n label, (Networks.after threeNetworks threeAdds).longest mappedAddress =
          some ⟨n, label⟩ →
        (Networks.after threeNetworks threeAdds).lookup n = some label ∧
          n.contains mappedAddress = true ∧ isIPv4 n.ip = isIPv4 mappedAddress :=
  ⟨by decide +kernel,
    contains_longest_match threeNetworks threeAdds mappedAddress (.inr rfl)⟩

end MiddlewareUtils.IpLookup
