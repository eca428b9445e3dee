import MiddlewareUtils.SimpleRedis.Resp

/-!
# One reply is one frame

Two facts about the decoder carry everything the connection pool needs to
know about bytes. It is stable: what it said of the bytes that had arrived
it says of every longer stream. And the encoding of a well-formed reply is a
frame for it: the decoder refuses, or it takes exactly those bytes and
returns the values of that reply.

The second holds for every reply a server can send, also for those the
decoder does not know. A line longer than the buffer, a bulk string over the
cap, an array over the cap, a nested or nil array: each is refused, and
nothing is accepted in its place.

Both are put together piece by piece with the rules of `Lib.Stream`, in the
order in which the source reads: a line, a payload, an element, the
elements, the reply.
-/

namespace MiddlewareUtils.SimpleRedis

open Lib

/-! ## Lines -/

theorem splitLine_append {s t l r : Bytes} (h : splitLine s = some (l, r)) :
    splitLine (s ++ t) = some (l, r ++ t) := by
  induction s generalizing l with
  | nil => exact nomatch h
  | cons b bs ih =>
    rw [splitLine] at h
    rw [List.cons_append, splitLine]
    split at h
    next hb =>
      injection h with h
      injection h with hl hr
      subst hl hr
      rw [if_pos hb]
    next hb =>
      obtain ⟨⟨l', r'⟩, hbs, heq⟩ := Option.map_eq_some_iff.mp h
      injection heq with hl hr
      subst hl hr
      rw [if_neg hb, ih hbs]
      rfl

theorem length_le_of_splitLine_none {s t l r : Bytes} (hs : splitLine s = none)
    (h : splitLine (s ++ t) = some (l, r)) : s.length ≤ l.length := by
  induction s generalizing l with
  | nil => exact Nat.zero_le _
  | cons b bs ih =>
    rw [splitLine] at hs
    rw [List.cons_append, splitLine] at h
    split at hs
    · exact nomatch hs
    next hb =>
      rw [if_neg hb] at h
      obtain ⟨⟨l', r'⟩, hbs, heq⟩ := Option.map_eq_some_iff.mp h
      injection heq with hl hr
      subst hl hr
      have := ih (Option.map_eq_none_iff.mp hs) hbs
      simp only [List.length_cons]
      omega

theorem splitLine_of_text {text s : Bytes} (h : lf ∉ text) :
    splitLine (text ++ lf :: s) = some (text, s) := by
  induction text with
  | nil => rfl
  | cons b bs ih =>
    have hb : b ≠ lf := fun hb => h (hb ▸ List.mem_cons_self)
    rw [List.cons_append, splitLine, if_neg hb, ih fun hm => h (List.mem_cons_of_mem b hm)]
    rfl

theorem readLine_stable : Stable readLine := by
  intro s t hne
  unfold readLine at hne ⊢
  cases hs : splitLine s with
  | some lr =>
    obtain ⟨l, r⟩ := lr
    rw [splitLine_append hs]
    dsimp only
    split
    · rfl
    · split <;> rfl
  | none =>
    rw [hs] at hne
    dsimp only at hne ⊢
    have hlong : ¬ s.length < bufferSize := fun hlt => hne (if_pos hlt)
    rw [if_neg hlong]
    cases hst : splitLine (s ++ t) with
    | none =>
      dsimp only
      rw [if_neg (by rw [List.length_append]; omega)]
      rfl
    | some lr =>
      obtain ⟨l, r⟩ := lr
      have := length_le_of_splitLine_none hs hst
      dsimp only
      rw [if_pos (by omega)]
      rfl

theorem readLine_frames {text : Bytes} (h : lf ∉ text) :
    Frames readLine (text ++ [cr, lf]) (· = text) := by
  intro s
  have hsplit : splitLine (text ++ [cr, lf] ++ s) = some (text ++ [cr], s) := by
    have hcr : lf ∉ text ++ [cr] := by
      rw [List.mem_append, not_or]
      exact ⟨h, by decide⟩
    rw [← splitLine_of_text hcr]
    simp
  unfold readLine
  rw [hsplit]
  dsimp only
  split
  · exact .inl ⟨_, rfl⟩
  · rw [if_pos (by simp), List.dropLast_concat]
    exact .inr ⟨text, rfl, rfl⟩

/-! ## Lengths -/

/-- What the digits say, the most significant first. -/
def digitsValue (length : ℕ) (digits : Bytes) : ℕ :=
  digits.foldl (fun n b => n * 10 + (b.toNat - 48)) length

theorem parseDigits_value {maxInt length n : ℕ} {digits : Bytes}
    (h : parseDigits maxInt length digits = some n) : n = digitsValue length digits := by
  induction digits generalizing length with
  | nil =>
    rw [parseDigits] at h
    injection h with h
    exact h.symm
  | cons b bs ih =>
    rw [parseDigits] at h
    split at h
    · exact nomatch h
    · dsimp only at h
      split at h
      · exact nomatch h
      · exact ih h

theorem toNat_digit {d : ℕ} (h : d < 10) : (UInt8.ofNat (48 + d)).toNat = 48 + d :=
  UInt8.toNat_ofNat_of_lt' (by simp only [UInt8.size]; omega)

theorem digitsValue_decimal (n : ℕ) : digitsValue 0 (decimal n) = n := by
  unfold decimal
  split
  next h => rw [h]; rfl
  · have hfold : ∀ ds : List ℕ, (∀ d ∈ ds, d < 10) →
        digitsValue 0 (ds.reverse.map fun d => UInt8.ofNat (48 + d)) = Nat.ofDigits 10 ds := by
      intro ds hds
      unfold digitsValue
      rw [List.foldl_map, List.foldl_reverse, Nat.ofDigits_eq_foldr]
      induction ds with
      | nil => rfl
      | cons d ds ih =>
        rw [List.foldr_cons, List.foldr_cons, ih fun d' h' => hds d' (List.mem_cons_of_mem d h'),
          toNat_digit (hds d List.mem_cons_self)]
        simp only [Nat.cast_id]
        omega
    rw [hfold _ fun d hd => Nat.digits_lt_base (by decide) hd, Nat.ofDigits_digits]

theorem mem_decimal {n : ℕ} {b : UInt8} (h : b ∈ decimal n) : 48 ≤ b.toNat ∧ b.toNat ≤ 57 := by
  unfold decimal at h
  split at h
  · rw [List.mem_singleton.mp h]
    decide
  · obtain ⟨d, hd, rfl⟩ := List.mem_map.mp h
    have hlt := Nat.digits_lt_base (by decide) (List.mem_reverse.mp hd)
    rw [toNat_digit hlt]
    omega

theorem decimal_ne_nil (n : ℕ) : decimal n ≠ [] := by
  unfold decimal
  split
  · exact List.cons_ne_nil _ _
  next h => simpa [Nat.digits_eq_nil_iff_eq_zero] using h

theorem lf_not_mem_decimal (n : ℕ) : lf ∉ decimal n := by
  intro h
  exact absurd (mem_decimal h).1 (by decide)

theorem lf_not_mem_decimalInt (n : ℤ) : lf ∉ decimalInt n := by
  cases n with
  | ofNat n => exact lf_not_mem_decimal n
  | negSucc n =>
    rw [decimalInt, List.mem_cons, not_or]
    exact ⟨by decide, lf_not_mem_decimal (n + 1)⟩

theorem parseLen_decimal {maxInt n : ℕ} {length : ℤ}
    (h : parseLen maxInt (decimal n) = some length) : length = n := by
  cases hd : decimal n with
  | nil => exact absurd hd (decimal_ne_nil n)
  | cons b bs =>
    have hb : b ≠ 45 := by
      rintro rfl
      exact absurd (mem_decimal (hd ▸ List.mem_cons_self)).1 (by decide)
    rw [hd, parseLen, if_neg hb, ← hd] at h
    obtain ⟨m, hm, rfl⟩ := Option.map_eq_some_iff.mp h
    rw [parseDigits_value hm, digitsValue_decimal]
    rfl

/-! ## Payloads -/

theorem readFull_stable (n : ℕ) : Stable (readFull n) := by
  intro s t hne
  unfold readFull at hne ⊢
  have hlen : ¬ s.length < n := fun hlt => hne (if_pos hlt)
  rw [if_neg hlen, if_neg (by rw [List.length_append]; omega),
    List.take_append_of_le_length (by omega), List.drop_append_of_le_length (by omega)]
  rfl

theorem readFull_frames (w : Bytes) : Frames (readFull w.length) w (· = w) := by
  intro s
  unfold readFull
  rw [if_neg (by rw [List.length_append]; omega), List.take_left, List.drop_left]
  exact .inr ⟨w, rfl, rfl⟩

theorem readBulk_stable (head : Bytes) : Stable (readBulk head) := by
  unfold readBulk
  cases head with
  | nil => exact Stable.fail _
  | cons b digits =>
    dsimp only
    split
    · exact Stable.fail _
    · split
      · exact Stable.fail _
      next length _ =>
        split
        · exact Stable.done _
        · split
          · exact Stable.fail _
          · refine (readFull_stable _).bind fun data => ?_
            split
            · exact Stable.done _
            · exact Stable.fail _

theorem readBulk_frames (data : Bytes) :
    Frames (readBulk (36 :: decimal data.length)) (data ++ [cr, lf]) (· = some data) := by
  intro s
  unfold readBulk
  dsimp only
  rw [if_neg (not_not_intro rfl)]
  split
  · exact .inl ⟨_, rfl⟩
  next length hparse =>
    rw [parseLen_decimal hparse, if_neg (by omega), Int.toNat_natCast]
    split
    · exact .inl ⟨_, rfl⟩
    · have hfull := readFull_frames (data ++ [cr, lf]) s
      rw [show (data ++ [cr, lf]).length = data.length + 2 from List.length_append] at hfull
      rcases hfull with ⟨e, he⟩ | ⟨d, hd, rfl⟩
      · rw [he]
        exact .inl ⟨e, rfl⟩
      · rw [hd]
        refine .inr ⟨some data, ?_, rfl⟩
        simp only [Parse.bind]
        rw [List.drop_left, if_pos rfl, List.take_left]

/-! ## Elements and replies

Every element and every reply starts with a line whose first byte says what
it is, so each case below is that line and what the byte leads to. -/

theorem headed_frames {α : Type} {f : Bytes → Bytes → Parse UInt8 Err α} {head w : Bytes}
    {P : α → Prop} (h : lf ∉ head) (hf : Frames (f head) w P) :
    Frames (fun s => (readLine s).bind f) (head ++ [cr, lf] ++ w) P := by
  refine (readLine_frames h).bind ?_
  rintro _ rfl
  exact hf

theorem readElement_stable : Stable readElement := by
  refine readLine_stable.bind fun head => ?_
  cases head with
  | nil => exact Stable.fail _
  | cons b text =>
    dsimp only
    split
    · exact readBulk_stable _
    · split
      · exact Stable.done _
      · exact Stable.fail _

theorem readElements_stable (count : ℕ) : Stable (readElements count) := by
  induction count with
  | zero => exact Stable.done _
  | succ count ih =>
    exact readElement_stable.bind fun value => ih.bind fun values => Stable.done _

theorem readReply_stable : Stable readReply := by
  refine readLine_stable.bind fun line => ?_
  cases line with
  | nil => exact Stable.fail _
  | cons b text =>
    dsimp only
    split
    · exact Stable.done _
    · split
      · exact Stable.done _
      · split
        · exact (readBulk_stable _).bind fun data => Stable.done _
        · split
          · split
            · exact Stable.fail _
            · split
              · exact Stable.fail _
              · split
                · exact Stable.fail _
                · exact (readElements_stable _).bind fun values => Stable.done _
          · exact Stable.fail _

theorem lf_not_mem_cons {b : UInt8} {text : Bytes} (hb : b ≠ lf) (h : lf ∉ text) :
    lf ∉ b :: text := by
  rw [List.mem_cons, not_or]
  exact ⟨hb.symm, h⟩

theorem lf_not_mem_of_contains {text : Bytes} (h : (!text.contains lf) = true) : lf ∉ text := by
  intro hm
  rw [List.contains_iff_mem.mpr hm] at h
  exact nomatch h

theorem copied_decimalInt (n : ℤ) : copied (decimalInt n) = some (decimalInt n) := by
  refine if_neg ?_
  cases n with
  | negSucc n => exact List.cons_ne_nil _ _
  | ofNat n =>
    show decimal n ≠ []
    unfold decimal
    split
    · exact List.cons_ne_nil _ _
    next hn =>
      rw [ne_eq, List.map_eq_nil_iff, List.reverse_eq_nil_iff, Nat.digits_eq_nil_iff_eq_zero]
      exact hn

theorem readElement_frames {r : Reply} (h : r.wellFormed) :
    Frames readElement r.encode fun value => r.element = some value := by
  cases r with
  | simple text =>
    have hlf := lf_not_mem_of_contains h
    rw [Reply.encode, ← List.append_nil (_ ++ [cr, lf])]
    exact headed_frames (lf_not_mem_cons (by decide) hlf) (Frames.done rfl)
  | error text =>
    have hlf := lf_not_mem_of_contains h
    rw [Reply.encode, ← List.append_nil (_ ++ [cr, lf])]
    exact headed_frames (lf_not_mem_cons (by decide) hlf) (Frames.fail Err.unsupportedReply)
  | integer n =>
    rw [Reply.encode, ← List.append_nil (_ ++ [cr, lf])]
    refine headed_frames (lf_not_mem_cons (by decide) (lf_not_mem_decimalInt n)) (Frames.done ?_)
    rw [Reply.element, copied_decimalInt]
  | bulk data =>
    rw [Reply.encode, bulkString, List.append_assoc]
    refine headed_frames (lf_not_mem_cons (by decide) (lf_not_mem_decimal _)) ?_
    intro s
    rcases readBulk_frames data s with ⟨e, he⟩ | ⟨_, hd, rfl⟩
    · exact .inl ⟨e, he⟩
    · exact .inr ⟨some data, hd, rfl⟩
  | nilBulk =>
    show Frames readElement ([36, 45, 49] ++ [cr, lf] ++ []) _
    exact headed_frames (by decide) (Frames.done rfl)
  | array elements =>
    rw [Reply.encode]
    exact headed_frames (lf_not_mem_cons (by decide) (lf_not_mem_decimal _))
      (Frames.fail Err.unsupportedReply)
  | nilArray =>
    show Frames readElement ([42, 45, 49] ++ [cr, lf] ++ []) _
    exact headed_frames (by decide) (Frames.fail Err.unsupportedReply)

theorem readElements_frames {rs : List Reply} (h : Reply.allWellFormed rs) :
    Frames (readElements rs.length) (Reply.encodeAll rs)
      fun values => rs.mapM Reply.element = some values := by
  induction rs with
  | nil => exact Frames.done rfl
  | cons r rs ih =>
    obtain ⟨hr, hrs⟩ := Bool.and_eq_true_iff.mp h
    refine (readElement_frames hr).bind fun value hvalue => ?_
    rw [← List.append_nil (Reply.encodeAll rs)]
    refine (ih hrs).bind fun values hvalues => Frames.done ?_
    rw [List.mapM_cons, hvalue, hvalues]
    rfl

def Answers (r : Reply) (d : Decoded) : Prop := ∀ values, d = .ok values → r.decoded = some values

theorem Answers.ok {r : Reply} {values : List (Option Bytes)} (h : r.decoded = some values) :
    Answers r (.ok values) := by
  intro values' hv
  injection hv with hv
  rw [← hv]
  exact h

theorem readReply_frames {r : Reply} (h : r.wellFormed) :
    Frames readReply r.encode (Answers r) := by
  cases r with
  | simple text =>
    have hlf := lf_not_mem_of_contains h
    rw [Reply.encode, ← List.append_nil (_ ++ [cr, lf])]
    exact headed_frames (lf_not_mem_cons (by decide) hlf) (Frames.done (.ok rfl))
  | error text =>
    have hlf := lf_not_mem_of_contains h
    rw [Reply.encode, ← List.append_nil (_ ++ [cr, lf])]
    exact headed_frames (lf_not_mem_cons (by decide) hlf) (Frames.done nofun)
  | integer n =>
    rw [Reply.encode, ← List.append_nil (_ ++ [cr, lf])]
    refine headed_frames (lf_not_mem_cons (by decide) (lf_not_mem_decimalInt n))
      (Frames.done (.ok ?_))
    rw [copied_decimalInt]
    rfl
  | bulk data =>
    rw [Reply.encode, bulkString, List.append_assoc,
      ← List.append_nil (data ++ [cr, lf])]
    refine headed_frames (lf_not_mem_cons (by decide) (lf_not_mem_decimal _)) ?_
    refine (readBulk_frames data).bind fun d hd => Frames.done (.ok ?_)
    rw [hd]
    rfl
  | nilBulk =>
    show Frames readReply ([36, 45, 49] ++ [cr, lf] ++ []) _
    exact headed_frames (by decide) (Frames.done (.ok rfl))
  | array elements =>
    rw [Reply.encode]
    refine headed_frames (lf_not_mem_cons (by decide) (lf_not_mem_decimal _)) ?_
    intro s
    dsimp only
    rw [if_neg (by decide), if_neg (by decide), if_neg (by decide), if_pos rfl]
    split
    · exact .inl ⟨_, rfl⟩
    next count hparse =>
      rw [parseLen_decimal hparse, if_neg (by omega), Int.toNat_natCast]
      split
      · exact .inl ⟨_, rfl⟩
      · rw [← List.append_nil (Reply.encodeAll elements)]
        exact (readElements_frames h).bind (fun _ hvalues => Frames.done (.ok hvalues)) s
  | nilArray =>
    show Frames readReply ([42, 45, 49] ++ [cr, lf] ++ []) _
    exact headed_frames (by decide) (Frames.fail Err.issue)

end MiddlewareUtils.SimpleRedis
