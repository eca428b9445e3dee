import MiddlewareUtils.Proofs.RespFrames

/-!
# A command reads back as it was written

`Proofs.RespFrames` says that the decoder, when it accepts a frame, accepts
the right thing. Here it must accept: the bytes `writeCommand` emits, for a
list within the decoder's own caps, are read back as exactly that list,
whatever the arguments contain and whatever follows. Nothing in an argument
can end it early or swallow what comes after it, because after the header
the decoder counts bytes and never looks at them; and the headers hold
digits only.

What is new over the frames is that nothing is refused. A header is far
shorter than the reader's buffer, since the caps bound its number of
digits, and the overflow check of `parseLen` lets every number through that
an `int` can hold. The rest is `Reads.bind`, line by line and payload by
payload, and `Reads.times` for commands written one after another.
-/

namespace MiddlewareUtils.SimpleRedis

open Lib

/-! ## Headers -/

theorem le_digitsValue (length : ℕ) (digits : Bytes) : length ≤ digitsValue length digits := by
  unfold digitsValue
  induction digits generalizing length with
  | nil => exact le_refl _
  | cons b bs ih =>
    have h := ih (length * 10 + (b.toNat - 48))
    rw [List.foldl_cons]
    omega

theorem parseDigits_of_fits {maxInt length : ℕ} {digits : Bytes}
    (hd : ∀ b ∈ digits, 48 ≤ b.toNat ∧ b.toNat ≤ 57)
    (hfits : digitsValue length digits ≤ maxInt) :
    parseDigits maxInt length digits = some (digitsValue length digits) := by
  induction digits generalizing length with
  | nil => rfl
  | cons b bs ih =>
    have hb := hd b List.mem_cons_self
    have hdigit : ¬ (b < 48 ∨ 57 < b) := by
      rw [UInt8.lt_iff_toNat_lt, UInt8.lt_iff_toNat_lt]
      show ¬ (b.toNat < 48 ∨ 57 < b.toNat)
      omega
    have hnext : digitsValue (length * 10 + (b.toNat - 48)) bs ≤ maxInt := hfits
    have hle := le_digitsValue (length * 10 + (b.toNat - 48)) bs
    rw [parseDigits, if_neg hdigit]
    dsimp only
    rw [if_neg (by omega), ih (fun b' hb' => hd b' (List.mem_cons_of_mem b hb')) hnext]
    rfl

theorem parseLen_of_fits {maxInt n : ℕ} (h : n ≤ maxInt) :
    parseLen maxInt (decimal n) = some (n : ℤ) := by
  have hparse : parseDigits maxInt 0 (decimal n) = some n := by
    rw [parseDigits_of_fits (fun b hb => mem_decimal hb) (by rwa [digitsValue_decimal]),
      digitsValue_decimal]
  cases hd : decimal n with
  | nil => exact absurd hd (decimal_ne_nil n)
  | cons b bs =>
    have hb : b ≠ 45 := by
      rintro rfl
      exact absurd (mem_decimal (hd ▸ List.mem_cons_self)).1 (by decide)
    rw [parseLen, if_neg hb, ← hd, hparse]
    rfl

theorem length_decimal {n k : ℕ} (hk : 0 < k) (h : n < 10 ^ k) : (decimal n).length ≤ k := by
  unfold decimal
  split
  · exact hk
  · rw [List.length_map, List.length_reverse]
    exact (Nat.digits_length_le_iff (by decide) n).mpr h

theorem readLine_reads {text : Bytes} (h : lf ∉ text) (hlen : text.length + 2 ≤ bufferSize) :
    Reads readLine (text ++ [cr, lf]) text := by
  intro s
  have hsplit : splitLine (text ++ [cr, lf] ++ s) = some (text ++ [cr], s) := by
    have hcr : lf ∉ text ++ [cr] := by
      rw [List.mem_append, not_or]
      exact ⟨h, by decide⟩
    rw [← splitLine_of_text hcr]
    simp
  unfold readLine
  rw [hsplit]
  dsimp only
  rw [if_neg (by rw [List.length_append]; simp only [List.length_cons, List.length_nil]; omega),
    if_pos (by simp), List.dropLast_concat]

theorem readLine_header {b : UInt8} {n : ℕ} (hb : b ≠ lf) (hn : n < 10 ^ 8) :
    Reads readLine (b :: decimal n ++ [cr, lf]) (b :: decimal n) := by
  have hlen : (b :: decimal n).length + 2 ≤ bufferSize := by
    have := length_decimal (by decide : 0 < 8) hn
    simp only [List.length_cons, bufferSize]
    omega
  exact readLine_reads (lf_not_mem_cons hb (lf_not_mem_decimal n)) hlen

/-! ## Bulk strings and commands -/

theorem readBulk_reads {data : Bytes} (h : data.length ≤ maxBulkLength) :
    Reads (readBulk (36 :: decimal data.length)) (data ++ [cr, lf]) (some data) := by
  intro s
  have hfits : data.length ≤ maxParseLen := by
    simp only [maxBulkLength, maxParseLen] at h ⊢
    omega
  have hfull : (data ++ [cr, lf]).length = data.length + 2 := List.length_append
  unfold readBulk
  dsimp only
  rw [if_neg (not_not_intro rfl), parseLen_of_fits hfits]
  dsimp only
  rw [if_neg (by omega), if_neg (by omega), Int.toNat_natCast, ← hfull, readFull,
    if_neg (by rw [List.length_append]; omega), List.take_left, List.drop_left]
  simp only [Parse.bind]
  rw [List.drop_left, if_pos rfl, List.take_left]

theorem readElement_bulkString {data : Bytes} (h : data.length ≤ maxBulkLength) :
    Reads readElement (bulkString data) (some data) := by
  have hn : data.length < 10 ^ 8 := by
    simp only [maxBulkLength] at h
    omega
  rw [bulkString, List.append_assoc]
  exact (readLine_header (by decide) hn).bind (readBulk_reads h)

theorem readElements_eq_times (n : ℕ) : readElements n = times readElement n := by
  induction n with
  | zero => rfl
  | succ n ih =>
    funext s
    rw [readElements, ih]
    rfl

/-- A command the decoder's caps leave room for. -/
def InCaps (args : List Bytes) : Prop :=
  args.length ≤ maxArrayCount ∧ ∀ arg ∈ args, arg.length ≤ maxBulkLength

instance : DecidablePred InCaps := fun args =>
  inferInstanceAs (Decidable (args.length ≤ maxArrayCount ∧ ∀ arg ∈ args, _))

theorem readReply_command {args : List Bytes} (h : InCaps args) :
    Reads readReply (writeCommand args) (.ok (args.map some)) := by
  obtain ⟨hcount, hlen⟩ := h
  have hn : args.length < 10 ^ 8 := by
    simp only [maxArrayCount] at hcount
    omega
  have hfits : args.length ≤ maxParseLen := by
    simp only [maxArrayCount, maxParseLen] at hcount ⊢
    omega
  have helems : Reads (readElements args.length) (args.flatMap bulkString) (args.map some) := by
    rw [readElements_eq_times]
    exact Reads.times fun arg harg => readElement_bulkString (hlen arg harg)
  rw [writeCommand]
  refine (readLine_header (by decide) hn).bind fun s => ?_
  dsimp only
  rw [if_neg (by decide), if_neg (by decide), if_neg (by decide), if_pos rfl,
    parseLen_of_fits hfits]
  dsimp only
  rw [if_neg (by omega), if_neg (by omega), Int.toNat_natCast, helems]
  rfl

/-- Commands within the caps, written one after another and followed by any
bytes: each one reads back as exactly its arguments with what follows it
untouched, and reading as many replies as there are commands gives exactly
the commands and leaves exactly the bytes that follow. -/
theorem readReply_writeCommand (commands : List (List Bytes))
    (h : ∀ args ∈ commands, InCaps args) (s : Bytes) :
    (∀ args ∈ commands, readReply (writeCommand args ++ s) = .done (.ok (args.map some)) s) ∧
      times readReply commands.length (commands.flatMap writeCommand ++ s) =
        .done (commands.map fun args => .ok (args.map some)) s :=
  ⟨fun args hargs => readReply_command (h args hargs) s,
    Reads.times (fun args hargs => readReply_command (h args hargs)) s⟩

/-- An argument that spells a command of its own, and an empty one. -/
theorem readReply_writeCommand_injection :
    let commands := [[ascii "SET", ascii "k", ascii "\r\n*1\r\n$7\r\nFLUSHDB\r\n"],
      [ascii "GET", []]]
    (∀ args ∈ commands, InCaps args) ∧
      (∀ args ∈ commands, readReply (writeCommand args ++ ascii "*") =
        .done (.ok (args.map some)) (ascii "*")) ∧
      times readReply 2 (commands.flatMap writeCommand ++ ascii "*") =
        .done (commands.map fun args => .ok (args.map some)) (ascii "*") :=
  ⟨by decide +kernel, readReply_writeCommand _ (by decide +kernel) _⟩

end MiddlewareUtils.SimpleRedis
