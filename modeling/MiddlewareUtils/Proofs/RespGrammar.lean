import MiddlewareUtils.Proofs.RespRoundTrip

/-!
# The language of the decoder

What `readReply` accepts, said without it. `Line`, `Numeral`, `Element`,
`Elements` and `Accepted` are the productions of a grammar over bytes, each
with the value it stands for. The decoder accepts a stream exactly when the
stream starts with a word of that grammar; it then returns the value of the
word, has taken its bytes and no others, and would have done the same
whatever had followed. `RespFrames` has the half of this that a correct peer
needs. Here the peer may send anything.

The decoder is put together from smaller ones, and the grammar in the same
way, so each production is one application of `Accepts.bind`. What a length
says is settled first: the digit loop with its overflow check reads exactly
the numerals that fit an `int`. A length may have leading zeros, and `-0` is
zero, not a negative length. The payload of a `+` or `:` line is a copy of
its text, and a copy of nothing is nil: to the caller `+` alone is what
`$-1` is (`copied`), while an empty bulk is empty and not nil.

That words are prefix-free is not in the grammar but follows, since the
decoder is stable: on a part of a reply it can only wait. If the stream ends
there, that is an I/O error.
-/

namespace MiddlewareUtils.SimpleRedis

open Lib

/-! ## Productions -/

def isDigit (b : UInt8) : Prop := 48 ≤ b.toNat ∧ b.toNat ≤ 57

inductive Numeral : Bytes → ℤ → Prop
  | nat {digits n} (hne : digits ≠ []) (hd : ∀ b ∈ digits, isDigit b)
      (hn : digitsValue 0 digits = n) (hfits : n ≤ maxParseLen) : Numeral digits n
  | neg {digits n} (hne : digits ≠ []) (hd : ∀ b ∈ digits, isDigit b)
      (hn : digitsValue 0 digits = n) (hfits : n ≤ maxParseLen) : Numeral (45 :: digits) (-n)

/-- A line of at most 4096 bytes that ends with CRLF at its first LF. -/
def Line (w text : Bytes) : Prop :=
  lf ∉ text ∧ text.length + 2 ≤ bufferSize ∧ w = text ++ [cr, lf]

inductive Payload (digits : Bytes) : Bytes → Option Bytes → Prop
  | data {data : Bytes} (hn : Numeral digits data.length) (hlen : data.length ≤ maxBulkLength) :
      Payload digits (data ++ [cr, lf]) (some data)
  | miss {n} (hn : Numeral digits n) (hneg : n < 0) : Payload digits [] none

inductive Element : Bytes → Option Bytes → Prop
  | simple {w text} (hw : Line w (43 :: text)) : Element w (copied text)
  | integer {w text} (hw : Line w (58 :: text)) : Element w (copied text)
  | bulk {w digits body value} (hw : Line w (36 :: digits)) (hbody : Payload digits body value) :
      Element (w ++ body) value

inductive Elements : ℕ → Bytes → List (Option Bytes) → Prop
  | nil : Elements 0 [] []
  | cons {n w value ws values} (hw : Element w value) (hws : Elements n ws values) :
      Elements (n + 1) (w ++ ws) (value :: values)

/-- A reply and what the decoder is to return for it. -/
inductive Accepted : Bytes → Decoded → Prop
  | value {w value} (hw : Element w value) : Accepted w (.ok [value])
  | error {w text} (hw : Line w (45 :: text)) : Accepted w (.error (replyError text))
  | array {w digits ws values} {n : ℕ} (hw : Line w (42 :: digits)) (hn : Numeral digits n)
      (hcap : n ≤ maxArrayCount) (hws : Elements n ws values) : Accepted (w ++ ws) (.ok values)

/-! ## Lengths -/

theorem parseDigits_iff {maxInt length n : ℕ} {digits : Bytes} (hmax : 9 ≤ maxInt)
    (hlen : length ≤ maxInt) :
    parseDigits maxInt length digits = some n ↔
      (∀ b ∈ digits, isDigit b) ∧ digitsValue length digits = n ∧ n ≤ maxInt := by
  constructor
  · intro h
    induction digits generalizing length with
    | nil =>
      injection h with h
      subst h
      exact ⟨nofun, rfl, hlen⟩
    | cons b bs ih =>
      rw [parseDigits] at h
      split at h
      · cases h
      next hb =>
        dsimp only at h
        split at h
        · cases h
        next hfits =>
          have hdigit : isDigit b := by
            rw [UInt8.lt_iff_toNat_lt, UInt8.lt_iff_toNat_lt, not_or] at hb
            exact ⟨not_lt.mp hb.1, not_lt.mp hb.2⟩
          have hnine : b.toNat - 48 ≤ 9 := by
            have := hdigit.2
            omega
          obtain ⟨hd, hn, hle⟩ := ih (by omega) h
          refine ⟨fun b' hb' => ?_, hn, hle⟩
          rcases List.mem_cons.mp hb' with rfl | hb'
          · exact hdigit
          · exact hd b' hb'
  · rintro ⟨hd, rfl, hle⟩
    exact parseDigits_of_fits hd hle

/-- A decimal length of at most `maxInt`. -/
inductive NumeralUpTo (maxInt : ℕ) : Bytes → ℤ → Prop
  | nat {digits n} (hne : digits ≠ []) (hd : ∀ b ∈ digits, isDigit b)
      (hn : digitsValue 0 digits = n) (hfits : n ≤ maxInt) : NumeralUpTo maxInt digits n
  | neg {digits n} (hne : digits ≠ []) (hd : ∀ b ∈ digits, isDigit b)
      (hn : digitsValue 0 digits = n) (hfits : n ≤ maxInt) : NumeralUpTo maxInt (45 :: digits) (-n)

theorem parseLen_iff_upTo {maxInt : ℕ} {digits : Bytes} {n : ℤ} (hmax : 9 ≤ maxInt) :
    parseLen maxInt digits = some n ↔ NumeralUpTo maxInt digits n := by
  have hnat : ∀ {ds : Bytes} {k : ℕ}, parseDigits maxInt 0 ds = some k ↔
      (∀ b ∈ ds, isDigit b) ∧ digitsValue 0 ds = k ∧ k ≤ maxInt :=
    parseDigits_iff hmax (Nat.zero_le _)
  constructor
  · intro h
    cases digits with
    | nil => cases h
    | cons b bs =>
      rw [parseLen] at h
      split at h
      next hb =>
        split at h
        · cases h
        next hne =>
          obtain ⟨k, hk, rfl⟩ := Option.map_eq_some_iff.mp h
          obtain ⟨hd, hv, hle⟩ := hnat.mp hk
          subst hb
          exact .neg hne hd hv hle
      · obtain ⟨k, hk, rfl⟩ := Option.map_eq_some_iff.mp h
        obtain ⟨hd, hv, hle⟩ := hnat.mp hk
        exact .nat (List.cons_ne_nil _ _) hd hv hle
  · intro h
    cases h with
    | @nat ds k hne hd hv hle =>
      cases digits with
      | nil => exact absurd rfl hne
      | cons b bs =>
        have hb : b ≠ 45 := by
          rintro rfl
          exact absurd (hd 45 List.mem_cons_self).1 (by decide)
        rw [parseLen, if_neg hb, hnat.mpr ⟨hd, hv, hle⟩]
        rfl
    | @neg ds k hne hd hv hle =>
      rw [parseLen, if_pos rfl, if_neg hne, hnat.mpr ⟨hd, hv, hle⟩]
      rfl

theorem parseLen_iff {digits : Bytes} {n : ℤ} :
    parseLen maxParseLen digits = some n ↔ Numeral digits n := by
  rw [parseLen_iff_upTo (by decide)]
  constructor
  · intro h
    cases h with
    | nat hne hd hn hfits => exact .nat hne hd hn hfits
    | neg hne hd hn hfits => exact .neg hne hd hn hfits
  · intro h
    cases h with
    | nat hne hd hn hfits => exact .nat hne hd hn hfits
    | neg hne hd hn hfits => exact .neg hne hd hn hfits

/-! ## The decoders -/

theorem splitLine_spec {s l r : Bytes} (h : splitLine s = some (l, r)) :
    lf ∉ l ∧ s = l ++ lf :: r := by
  induction s generalizing l with
  | nil => cases h
  | cons b bs ih =>
    rw [splitLine] at h
    split at h
    next hb =>
      cases h
      subst hb
      exact ⟨List.not_mem_nil, rfl⟩
    next hb =>
      obtain ⟨⟨l', r'⟩, hbs, heq⟩ := Option.map_eq_some_iff.mp h
      cases heq
      obtain ⟨hlf, rfl⟩ := ih hbs
      exact ⟨lf_not_mem_cons hb hlf, rfl⟩

theorem readLine_accepts : Accepts readLine Line where
  reads := by
    rintro _ text ⟨hlf, hlen, rfl⟩
    exact readLine_reads hlf hlen
  parsed := by
    intro s text rest h
    unfold readLine at h
    split at h
    · split at h <;> cases h
    next line r hsplit =>
      split at h
      · cases h
      next hlen =>
        split at h
        next hcr =>
          cases h
          obtain ⟨hlf, rfl⟩ := splitLine_spec hsplit
          obtain ⟨text, rfl⟩ := List.getLast?_eq_some_iff.mp hcr
          rw [List.dropLast_concat]
          simp only [List.length_append, List.length_cons, List.length_nil] at hlen
          refine ⟨text ++ [cr, lf], ⟨fun hm => hlf (List.mem_append_left _ hm), by omega, rfl⟩, ?_⟩
          simp
        · cases h

theorem readFull_parsed {n : ℕ} {s data rest : Bytes} (h : readFull n s = .done data rest) :
    data.length = n ∧ s = data ++ rest := by
  unfold readFull at h
  split at h
  · cases h
  · cases h
    exact ⟨by rw [List.length_take]; omega, (List.take_append_drop n s).symm⟩

theorem readBulk_accepts (digits : Bytes) : Accepts (readBulk (36 :: digits)) (Payload digits) where
  reads := by
    intro w value h s
    cases h with
    | @data data hn hlen =>
      have hfull : (data ++ [cr, lf]).length = data.length + 2 := List.length_append
      unfold readBulk
      dsimp only
      rw [if_neg (not_not_intro rfl), parseLen_iff.mpr hn]
      dsimp only
      rw [if_neg (by omega), if_neg (by omega), Int.toNat_natCast, ← hfull, readFull,
        if_neg (by rw [List.length_append]; omega), List.take_left, List.drop_left]
      simp only [Parse.bind]
      rw [List.drop_left, if_pos rfl, List.take_left]
    | miss hn hneg =>
      unfold readBulk
      dsimp only
      rw [if_neg (not_not_intro rfl), parseLen_iff.mpr hn]
      exact if_pos hneg
  parsed := by
    intro s value rest h
    unfold readBulk at h
    dsimp only at h
    rw [if_neg (not_not_intro rfl)] at h
    split at h
    · cases h
    next n hn =>
      have hn := parseLen_iff.mp hn
      split at h
      next hneg =>
        cases h
        exact ⟨[], .miss hn hneg, rfl⟩
      next hnonneg =>
        obtain ⟨k, rfl⟩ := Int.eq_ofNat_of_zero_le (not_lt.mp hnonneg)
        split at h
        · cases h
        next hcap =>
          rw [Int.toNat_natCast] at h
          cases hfull : readFull (k + 2) s with
          | more => rw [hfull] at h; cases h
          | fail e => rw [hfull] at h; cases h
          | done data mid =>
            rw [hfull] at h
            simp only [Parse.bind] at h
            obtain ⟨hlen, rfl⟩ := readFull_parsed hfull
            split at h
            next htail =>
              cases h
              have hk : (data.take k).length = k := by
                rw [List.length_take]
                omega
              refine ⟨data.take k ++ [cr, lf], .data ?_ ?_, ?_⟩
              · rwa [hk]
              · rw [hk]
                omega
              · rw [← htail, List.take_append_drop]
            · cases h

def ElementBody (head w : Bytes) (value : Option Bytes) : Prop :=
  (∃ text, (head = 43 :: text ∨ head = 58 :: text) ∧ w = [] ∧ value = copied text) ∨
    ∃ digits, head = 36 :: digits ∧ Payload digits w value

theorem element_iff (w : Bytes) (value : Option Bytes) :
    (∃ w₁ head w₂, Line w₁ head ∧ ElementBody head w₂ value ∧ w = w₁ ++ w₂) ↔
      Element w value := by
  constructor
  · rintro ⟨w₁, head, w₂, hline, hbody, rfl⟩
    rcases hbody with ⟨text, rfl | rfl, rfl, rfl⟩ | ⟨digits, rfl, hpay⟩
    · rw [List.append_nil]
      exact .simple hline
    · rw [List.append_nil]
      exact .integer hline
    · exact .bulk hline hpay
  · intro h
    cases h with
    | simple hline =>
      exact ⟨_, _, [], hline, Or.inl ⟨_, Or.inl rfl, rfl, rfl⟩, (List.append_nil _).symm⟩
    | integer hline =>
      exact ⟨_, _, [], hline, Or.inl ⟨_, Or.inr rfl, rfl, rfl⟩, (List.append_nil _).symm⟩
    | bulk hline hpay => exact ⟨_, _, _, hline, Or.inr ⟨_, rfl, hpay⟩, rfl⟩

theorem readElement_accepts : Accepts readElement Element := by
  refine (readLine_accepts.bind (H := ElementBody) fun head => ?_).of_iff element_iff
  cases head with
  | nil =>
    refine (Accepts.fail _).of_iff fun w value => ?_
    simp [ElementBody]
  | cons b text =>
    dsimp only
    split
    next hb =>
      subst hb
      refine (readBulk_accepts text).of_iff fun w value => ?_
      simp [ElementBody]
    next hb =>
      split
      next hb' =>
        refine (Accepts.done _).of_iff fun w value => ?_
        rcases hb' with rfl | rfl <;> simp [ElementBody]
      next hb' =>
        refine (Accepts.fail _).of_iff fun w value => ?_
        rw [not_or] at hb'
        simp [ElementBody, hb, hb']

theorem readElements_accepts (count : ℕ) : Accepts (readElements count) (Elements count) := by
  induction count with
  | zero =>
    refine (Accepts.done _).of_iff fun w values => ⟨?_, fun h => ?_⟩
    · rintro ⟨rfl, rfl⟩
      exact .nil
    · cases h
      exact ⟨rfl, rfl⟩
  | succ count ih =>
    refine (readElement_accepts.bind fun value =>
      ih.bind fun values => Accepts.done (value :: values)).of_iff fun w values =>
        ⟨?_, fun h => ?_⟩
    · rintro ⟨w₁, value, w₂, hw, ⟨ws, values, _, hws, ⟨rfl, rfl⟩, rfl⟩, rfl⟩
      rw [List.append_nil]
      exact .cons hw hws
    · cases h with
      | cons hw hws =>
        exact ⟨_, _, _, hw, ⟨_, _, [], hws, ⟨rfl, rfl⟩, (List.append_nil _).symm⟩, rfl⟩

def ReplyBody (line w : Bytes) (d : Decoded) : Prop :=
  (∃ value, ElementBody line w value ∧ d = .ok [value]) ∨
  (∃ text, line = 45 :: text ∧ w = [] ∧ d = .error (replyError text)) ∨
  ∃ digits values, ∃ n : ℕ, line = 42 :: digits ∧ Numeral digits n ∧ n ≤ maxArrayCount ∧
    Elements n w values ∧ d = .ok values

theorem accepted_iff (w : Bytes) (d : Decoded) :
    (∃ w₁ line w₂, Line w₁ line ∧ ReplyBody line w₂ d ∧ w = w₁ ++ w₂) ↔ Accepted w d := by
  constructor
  · rintro ⟨w₁, line, w₂, hline, hbody, rfl⟩
    rcases hbody with ⟨value, hbody, rfl⟩ | ⟨text, rfl, rfl, rfl⟩ |
      ⟨digits, values, n, rfl, hn, hcap, hws, rfl⟩
    · exact .value ((element_iff _ _).mp ⟨w₁, line, w₂, hline, hbody, rfl⟩)
    · rw [List.append_nil]
      exact .error hline
    · exact .array hline hn hcap hws
  · intro h
    cases h with
    | value hw =>
      obtain ⟨w₁, line, w₂, hline, hbody, rfl⟩ := (element_iff _ _).mpr hw
      exact ⟨w₁, line, w₂, hline, Or.inl ⟨_, hbody, rfl⟩, rfl⟩
    | error hline =>
      exact ⟨_, _, [], hline, Or.inr (Or.inl ⟨_, rfl, rfl, rfl⟩), (List.append_nil _).symm⟩
    | array hline hn hcap hws =>
      exact ⟨_, _, _, hline, Or.inr (Or.inr ⟨_, _, _, rfl, hn, hcap, hws, rfl⟩), rfl⟩

theorem replyBody_array (digits w : Bytes) (d : Decoded) :
    ReplyBody (42 :: digits) w d ↔ ∃ values, ∃ n : ℕ, Numeral digits n ∧ n ≤ maxArrayCount ∧
      Elements n w values ∧ d = .ok values := by
  constructor
  · rintro (⟨_, hbody, rfl⟩ | ⟨_, hline, _⟩ | ⟨_, values, n, hline, h⟩)
    · simp [ElementBody] at hbody
    · cases hline
    · cases hline
      exact ⟨values, n, h⟩
  · rintro ⟨values, n, h⟩
    exact .inr (Or.inr ⟨digits, values, n, rfl, h⟩)

theorem readArray_accepts (digits : Bytes) :
    Accepts (fun rest => match parseLen maxParseLen digits with
      | none => .fail .issue
      | some count =>
        if count < 0 then .fail .issue
        else if (maxArrayCount : ℤ) < count then .fail .issue
        else (readElements count.toNat rest).bind fun values rest => .done (.ok values) rest)
      (ReplyBody (42 :: digits)) := by
  -- A header with a length outside the caps, or with none, has no array.
  have hrefuse : (∀ n : ℕ, n ≤ maxArrayCount → ¬ Numeral digits n) →
      ∀ (w : Bytes) (d : Decoded), False ↔ ReplyBody (42 :: digits) w d := by
    intro hno w d
    rw [replyBody_array]
    refine ⟨False.elim, ?_⟩
    rintro ⟨_, n, hn, hcap, _⟩
    exact hno n hcap hn
  cases hparse : parseLen maxParseLen digits with
  | none =>
    refine (Accepts.fail _).of_iff (hrefuse fun n _ hn => ?_)
    rw [parseLen_iff.mpr hn] at hparse
    cases hparse
  | some count =>
    have huniq : ∀ {n : ℕ}, Numeral digits n → (n : ℤ) = count := fun hn =>
      Option.some.inj ((parseLen_iff.mpr hn).symm.trans hparse)
    dsimp only
    split
    next hneg =>
      refine (Accepts.fail _).of_iff (hrefuse fun n _ hn => ?_)
      have := huniq hn
      omega
    next hnonneg =>
      split
      next hbig =>
        refine (Accepts.fail _).of_iff (hrefuse fun n hcap hn => ?_)
        have := huniq hn
        omega
      next hcap =>
        refine ((readElements_accepts _).bind fun values => Accepts.done _).of_iff fun w d => ?_
        rw [replyBody_array]
        obtain ⟨n, rfl⟩ := Int.eq_ofNat_of_zero_le (not_lt.mp hnonneg)
        constructor
        · rintro ⟨w₁, values, _, hws, ⟨rfl, rfl⟩, rfl⟩
          rw [List.append_nil]
          exact ⟨values, n, parseLen_iff.mp hparse, by omega, hws, rfl⟩
        · rintro ⟨values, n', hn, _, hws, rfl⟩
          obtain rfl : n' = n := by exact_mod_cast huniq hn
          exact ⟨w, values, [], hws, ⟨rfl, rfl⟩, (List.append_nil _).symm⟩

theorem readReply_accepts : Accepts readReply Accepted := by
  refine (readLine_accepts.bind (H := ReplyBody) fun line => ?_).of_iff accepted_iff
  cases line with
  | nil =>
    refine (Accepts.fail _).of_iff fun w d => ?_
    simp [ReplyBody, ElementBody]
  | cons b text =>
    dsimp only
    split
    next hb =>
      refine (Accepts.done _).of_iff fun w d => ?_
      rcases hb with rfl | rfl <;> simp [ReplyBody, ElementBody]
    next hb =>
      rw [not_or] at hb
      split
      next hb' =>
        subst hb'
        refine (Accepts.done _).of_iff fun w d => ?_
        simp [ReplyBody, ElementBody]
      next hb' =>
        split
        next hb'' =>
          subst hb''
          refine ((readBulk_accepts text).bind fun value => Accepts.done _).of_iff fun w d => ?_
          simp [ReplyBody, ElementBody]
        next hb'' =>
          split
          next hb''' =>
            subst hb'''
            exact readArray_accepts text
          next hb''' =>
            refine (Accepts.fail _).of_iff fun w d => ?_
            simp [ReplyBody, ElementBody, hb, hb', hb'', hb''']

/-! ## Refusals -/

/-- A framing error or a reply the client has no value for. -/
def isDirtyProtocolError (e : Err) : Prop := e = .issue ∨ e = .unsupportedReply

theorem readLine_refuses : Refuses readLine isDirtyProtocolError := by
  intro s e h
  unfold readLine at h
  split at h
  · split at h
    · cases h
    · cases h
      exact .inl rfl
  · split at h
    · cases h
      exact .inl rfl
    · split at h
      · cases h
      · cases h
        exact .inl rfl

theorem readBulk_refuses (head : Bytes) : Refuses (readBulk head) isDirtyProtocolError := by
  have hissue : isDirtyProtocolError .issue := Or.inl rfl
  unfold readBulk
  cases head with
  | nil => exact Refuses.fail hissue
  | cons b digits =>
    dsimp only
    split
    · exact Refuses.fail hissue
    · split
      · exact Refuses.fail hissue
      · split
        · exact Refuses.done _
        · split
          · exact Refuses.fail hissue
          · refine Refuses.bind (fun s e h => ?_) fun data => ?_
            · unfold readFull at h
              split at h <;> cases h
            · split
              · exact Refuses.done _
              · exact Refuses.fail hissue

theorem readElements_refuses (count : ℕ) : Refuses (readElements count) isDirtyProtocolError := by
  have hissue : isDirtyProtocolError .issue := Or.inl rfl
  induction count with
  | zero => exact Refuses.done _
  | succ count ih =>
    refine Refuses.bind (readLine_refuses.bind fun head => ?_) fun value =>
      ih.bind fun values => Refuses.done _
    cases head with
    | nil => exact Refuses.fail hissue
    | cons b text =>
      dsimp only
      split
      · exact readBulk_refuses _
      · split
        · exact Refuses.done _
        · exact Refuses.fail (Or.inr rfl)

theorem readReply_refuses : Refuses readReply isDirtyProtocolError := by
  have hissue : isDirtyProtocolError .issue := Or.inl rfl
  refine readLine_refuses.bind fun line => ?_
  cases line with
  | nil => exact Refuses.fail hissue
  | cons b text =>
    dsimp only
    split
    · exact Refuses.done _
    · split
      · exact Refuses.done _
      · split
        · exact (readBulk_refuses _).bind fun data => Refuses.done _
        · split
          · split
            · exact Refuses.fail hissue
            · split
              · exact Refuses.fail hissue
              · split
                · exact Refuses.fail hissue
                · exact (readElements_refuses _).bind fun values => Refuses.done _
          · exact Refuses.fail (Or.inr rfl)

theorem readReply_error {bs rest : Bytes} {e : Err} (h : readReply bs = .done (.error e) rest) :
    ∃ text, e = replyError text := by
  obtain ⟨w, hw, _⟩ := readReply_accepts.parsed h
  cases hw with
  | error => exact ⟨_, rfl⟩

/-! ## The result -/

/-- Why `readReply` has no reply: the stream ended, or a sentinel. -/
inductive ReadErr where
  | io
  | sentinel (e : Err)
  deriving DecidableEq, Repr

/-- What `readReply` returns. -/
structure Returned where
  values : Option (List (Option Bytes))
  clean : Bool
  err : Option ReadErr
  deriving DecidableEq, Repr

def Decoded.returned : Decoded → Returned
  | .ok values => ⟨some values, true, none⟩
  | .error e => ⟨none, true, some (.sentinel e)⟩

/-- `readReply` on a stream that ends. -/
def readReplyOf (stream : Bytes) : Returned :=
  match readReply stream with
  | .done d _ => d.returned
  | .fail e => ⟨none, false, some (.sentinel e)⟩
  | .more => ⟨none, false, some .io⟩

theorem Decoded.returned_clean (d : Decoded) : d.returned.clean = true := by
  cases d <;> rfl

/-- The decoder accepts the grammar, takes one reply, and waits on a part of
one. -/
theorem reply_grammar (stream : Bytes) :
    ((readReplyOf stream).clean = true ↔ ∃ w d rest, Accepted w d ∧ stream = w ++ rest) ∧
    (∀ w d rest, Accepted w d → stream = w ++ rest →
      readReply stream = .done d rest ∧ readReplyOf stream = d.returned) ∧
    ((∀ w d rest, Accepted w d → stream ≠ w ++ rest) →
      (readReplyOf stream).values = none ∧ (readReplyOf stream).clean = false ∧
        (readReplyOf stream).err ≠ none) ∧
    ∀ w d, Accepted w d → stream <+: w → stream ≠ w →
      readReplyOf stream = ⟨none, false, some .io⟩ := by
  have hdone : ∀ {w d rest}, Accepted w d → stream = w ++ rest →
      readReply stream = .done d rest := by
    rintro w d rest hw rfl
    exact readReply_accepts.reads hw rest
  refine ⟨⟨fun h => ?_, ?_⟩, fun w d rest hw hs => ?_, fun hno => ?_, fun w d hw hs hne => ?_⟩
  · unfold readReplyOf at h
    cases hr : readReply stream with
    | more => rw [hr] at h; cases h
    | fail e => rw [hr] at h; cases h
    | done d rest =>
      obtain ⟨w, hw, hs⟩ := readReply_accepts.parsed hr
      exact ⟨w, d, rest, hw, hs⟩
  · rintro ⟨w, d, rest, hw, hs⟩
    rw [readReplyOf, hdone hw hs]
    exact d.returned_clean
  · refine ⟨hdone hw hs, ?_⟩
    rw [readReplyOf, hdone hw hs]
  · unfold readReplyOf
    cases hr : readReply stream with
    | more => exact ⟨rfl, rfl, nofun⟩
    | fail e => exact ⟨rfl, rfl, nofun⟩
    | done d rest =>
      obtain ⟨w, hw, hs⟩ := readReply_accepts.parsed hr
      exact absurd hs (hno w d rest hw)
  · rw [readReplyOf, readReply_accepts.more_of_prefix readReply_stable hw hs hne]

/-- An array of an integer and a miss, with the next reply behind it. -/
example : readReply (ascii "*2\r\n:7\r\n$-1\r\n+OK\r\n") =
    .done (.ok [some (ascii "7"), none]) (ascii "+OK\r\n") := by decide +kernel

end MiddlewareUtils.SimpleRedis
