import Mathlib.Data.Nat.Digits.Lemmas
import MiddlewareUtils.Lib.Stream

/-!
# RESP on a pooled connection

The wire format of the client: `writeCommand` frames one command as an array
of bulk strings, `readReply` decodes one reply. The decoder is written as a
parser of the bytes that have arrived (`Lib.Parse`). Waiting is `more`: with
a stream that has ended or a socket whose deadline has passed, the same
state is the I/O error of the source. Refusing is `fail`, with the sentinel
the source returns; it always leaves the stream unusable, which is
`clean = false`. An accepted reply is `clean = true`.

`bufio.Reader` matters in one place. `ReadSlice` gives up when its 4096-byte
buffer holds no newline, so a longer line is refused whatever follows; how
the bytes were split into reads does not enter.

A peer is anything that sends replies of the protocol. `Reply` is what a
server can send in RESP2, nested and nil arrays included, and `encode` is
how it does; `decoded` is what a caller of this client is to be given for
it, and nothing for the replies the client has no value for.
-/

namespace MiddlewareUtils.SimpleRedis

open Lib

abbrev Bytes := List UInt8

def ascii (s : String) : Bytes := s.toList.map fun c => UInt8.ofNat c.toNat

def cr : UInt8 := 13
def lf : UInt8 := 10

/-! ## Errors -/

inductive CtxErr where
  | canceled
  | deadlineExceeded
  deriving DecidableEq, Repr

/-- The sentinels a command can return. Each constructor is one identity, so
`poolWait`, which the source wraps around `unreachable`, is not `unreachable`. -/
inductive Err where
  | unreachable
  | poolWait
  | timeout
  | noAuth
  | issue
  | unsupportedReply
  | context (e : CtxErr)
  /-- An error reply of the peer, with its text. -/
  | reply (text : Bytes)
  deriving DecidableEq, Repr

/-- `Error()`. -/
def Err.text : Err → Bytes
  | unreachable => ascii "redis:unreachable"
  | poolWait => ascii "redis:unreachable"
  | timeout => ascii "redis:timeout"
  | noAuth => ascii "redis:noauth"
  | issue => ascii "redis:issue?"
  | unsupportedReply => ascii "redis:unsupported-reply"
  | context .canceled => ascii "context canceled"
  | context .deadlineExceeded => ascii "context deadline exceeded"
  | reply text => text

def hasPrefix (text : Bytes) (word : String) : Bool := (ascii word).isPrefixOf text

def replyError (message : Bytes) : Err :=
  if ["NOAUTH", "WRONGPASS", "NOPERM", "ERR Client sent AUTH"].any (hasPrefix message) then .noAuth
  else .reply message

/-! ## Lengths -/

def maxBulkLength : ℕ := 64 * 2 ^ 20
def maxArrayCount : ℕ := 2 ^ 20

/-- The largest `int` of a 64-bit platform. -/
def maxParseLen : ℕ := 2 ^ 63 - 1

/-- The digit loop of `parseLen`, for an `int` that ends at `maxInt`. -/
def parseDigits (maxInt : ℕ) : ℕ → Bytes → Option ℕ
  | length, [] => some length
  | length, digitByte :: digits =>
    if digitByte < 48 ∨ 57 < digitByte then none
    else
      let digit := digitByte.toNat - 48
      if (maxInt - digit) / 10 < length then none
      else parseDigits maxInt (length * 10 + digit) digits

def parseLen (maxInt : ℕ) : Bytes → Option ℤ
  | [] => none
  | b :: digits =>
    if b = 45 then
      if digits = [] then none
      else (parseDigits maxInt 0 digits).map fun length => -Int.ofNat length
    else (parseDigits maxInt 0 (b :: digits)).map Int.ofNat

/-- `strconv.AppendInt` of a length. -/
def decimal (n : ℕ) : Bytes :=
  if n = 0 then [48] else (Nat.digits 10 n).reverse.map fun d => UInt8.ofNat (48 + d)

/-! ## Writing a command -/

def bulkString (data : Bytes) : Bytes := 36 :: decimal data.length ++ [cr, lf] ++ data ++ [cr, lf]

/-- The bytes of a command: an array of bulk strings. -/
def writeCommand (args : List Bytes) : Bytes :=
  42 :: decimal args.length ++ [cr, lf] ++ args.flatMap bulkString

/-! ## Reading a reply -/

/-- The size of the buffer `bufio.NewReader` makes. -/
def bufferSize : ℕ := 4096

/-- What is before the first LF and what is after it. -/
def splitLine : Bytes → Option (Bytes × Bytes)
  | [] => none
  | b :: bs =>
    if b = lf then some ([], bs)
    else (splitLine bs).map fun r => (b :: r.1, r.2)

def readLine (bs : Bytes) : Parse UInt8 Err Bytes :=
  match splitLine bs with
  | none => if bs.length < bufferSize then .more else .fail .issue
  | some (line, rest) =>
    if bufferSize < line.length + 1 then .fail .issue
    else if line.getLast? = some cr then .done line.dropLast rest
    else .fail .issue

/-- `io.ReadFull` of `n` bytes. -/
def readFull (n : ℕ) (bs : Bytes) : Parse UInt8 Err Bytes :=
  if bs.length < n then .more else .done (bs.take n) (bs.drop n)

/-- The payload of a `$` header; `none` is the miss of a negative length. -/
def readBulk (head : Bytes) (bs : Bytes) : Parse UInt8 Err (Option Bytes) :=
  match head with
  | [] => .fail .issue
  | b :: digits =>
    if b ≠ 36 then .fail .issue
    else
      match parseLen maxParseLen digits with
      | none => .fail .issue
      | some length =>
        if length < 0 then .done none bs
        else if (maxBulkLength : ℤ) < length then .fail .issue
        else
          (readFull (length.toNat + 2) bs).bind fun data rest =>
            if data.drop length.toNat = [cr, lf] then
              .done (some (data.take length.toNat)) rest
            else .fail .issue

/-- `append([]byte(nil), text...)`: a copy, which is nil when there is nothing to copy. -/
def copied (text : Bytes) : Option Bytes := if text = [] then none else some text

/-- One element of an array. -/
def readElement (bs : Bytes) : Parse UInt8 Err (Option Bytes) :=
  (readLine bs).bind fun head rest =>
    match head with
    | [] => .fail .issue
    | b :: text =>
      if b = 36 then readBulk head rest
      else if b = 58 ∨ b = 43 then .done (copied text) rest
      else .fail .unsupportedReply

def readElements : ℕ → Bytes → Parse UInt8 Err (List (Option Bytes))
  | 0, bs => .done [] bs
  | count + 1, bs =>
    (readElement bs).bind fun value rest =>
      (readElements count rest).bind fun values rest => .done (value :: values) rest

/-- A reply that leaves the stream usable: its values, or the peer's error. -/
abbrev Decoded := Except Err (List (Option Bytes))

/-- `readReply`: one reply, or the error that makes the socket unusable. -/
def readReply (bs : Bytes) : Parse UInt8 Err Decoded :=
  (readLine bs).bind fun line rest =>
    match line with
    | [] => .fail .issue
    | b :: text =>
      if b = 43 ∨ b = 58 then .done (.ok [copied text]) rest
      else if b = 45 then .done (.error (replyError text)) rest
      else if b = 36 then
        (readBulk line rest).bind fun data rest => .done (.ok [data]) rest
      else if b = 42 then
        match parseLen maxParseLen text with
        | none => .fail .issue
        | some count =>
          if count < 0 then .fail .issue
          else if (maxArrayCount : ℤ) < count then .fail .issue
          else (readElements count.toNat rest).bind fun values rest => .done (.ok values) rest
      else .fail .unsupportedReply

/-! ## What a peer sends -/

/-- A reply a server may send. -/
inductive Reply where
  | simple (text : Bytes)
  | error (text : Bytes)
  | integer (n : ℤ)
  | bulk (data : Bytes)
  | nilBulk
  | array (elements : List Reply)
  | nilArray

def decimalInt : ℤ → Bytes
  | .ofNat n => decimal n
  | .negSucc n => 45 :: decimal (n + 1)

namespace Reply

mutual

def encode : Reply → Bytes
  | simple text => 43 :: text ++ [cr, lf]
  | error text => 45 :: text ++ [cr, lf]
  | integer n => 58 :: decimalInt n ++ [cr, lf]
  | bulk data => bulkString data
  | nilBulk => 36 :: 45 :: 49 :: [cr, lf]
  | array elements => 42 :: decimal elements.length ++ [cr, lf] ++ encodeAll elements
  | nilArray => 42 :: 45 :: 49 :: [cr, lf]

def encodeAll : List Reply → Bytes
  | [] => []
  | r :: rs => r.encode ++ encodeAll rs

end

mutual

/-- The text of a line does not end it. -/
def wellFormed : Reply → Bool
  | simple text => !text.contains lf
  | error text => !text.contains lf
  | array elements => allWellFormed elements
  | _ => true

def allWellFormed : List Reply → Bool
  | [] => true
  | r :: rs => r.wellFormed && allWellFormed rs

end

/-- The value of a reply that is one value. -/
def element : Reply → Option (Option Bytes)
  | simple text => some (copied text)
  | integer n => some (some (decimalInt n))
  | bulk data => some (some data)
  | nilBulk => some none
  | _ => none

/-- The payloads a caller gets of a reply. -/
def decoded : Reply → Option (List (Option Bytes))
  | array elements => elements.mapM element
  | r => r.element.map fun value => [value]

end Reply

end MiddlewareUtils.SimpleRedis
