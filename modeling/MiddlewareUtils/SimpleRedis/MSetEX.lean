import MiddlewareUtils.Lib.Lua
import MiddlewareUtils.SimpleRedis.Resp

/-!
# MSETEX and its Lua fallback

`msetex` writes a group of pairs under one expiry: with the native command
where the engine has it, and with a script under EVALSHA or EVAL where it
does not. The two argument lists have nothing in common but their content,
so both are translated as the source builds them, and so is what a server
makes of each. `exec` is taken from outside: `Peer` answers a request with
the knowledge of everything that was sent before it, which covers whatever
the engine, other clients and a failing network may do in between.

The digest of a script is its SHA-1 in hex. Nothing here depends on which
function that is, and it stays a parameter.
-/

namespace MiddlewareUtils.SimpleRedis

open Lib

def maxMSetEXPairs : ℕ := 1024

inductive GroupWritePath where
  | unknown
  | native
  | lua
  deriving DecidableEq, Repr

inductive ExpireToken where
  | ex
  | exat
  deriving DecidableEq, Repr

def ExpireToken.text : ExpireToken → Bytes
  | ex => ascii "EX"
  | exat => ascii "EXAT"

/-! ## The script -/

def msetexFallbackScript : String :=
  "local token = ARGV[#ARGV - 1]\n" ++
  "local ttl = ARGV[#ARGV]\n" ++
  "for i = 1, #KEYS do\n" ++
  "  redis.call('SET', KEYS[i], ARGV[i], token, ttl)\n" ++
  "end\n" ++
  "return 1"

/-- The body of the loop. -/
def setPair : Lua.Stmt :=
  .callS "redis.call" [.string "SET", .index "KEYS" (.name "i"), .index "ARGV" (.name "i"),
    .name "token", .name "ttl"]

/-- The script as the engine reads it. -/
def msetexFallback : Lua.Script :=
  [.localS "token" (.index "ARGV" (.sub (.length "ARGV") (.number 1))),
    .localS "ttl" (.index "ARGV" (.length "ARGV")),
    .forS "i" (.number 1) (.length "KEYS") [setPair],
    .returnS (.number 1)]

theorem msetexFallback_text : msetexFallback.text = msetexFallbackScript := by decide +kernel

/-! ## What is sent -/

def evalVerb : Bytes := ascii "EVAL"
def evalShaVerb : Bytes := ascii "EVALSHA"

def evalArgv (verb scriptOrDigest : Bytes) (keys args : List Bytes) : List Bytes :=
  [verb, scriptOrDigest, decimal keys.length] ++ keys ++ args

/-- The source reads `values[i]` for each name; `msetex` has checked that the
lists are equally long. -/
def msetexArgs (names values : List Bytes) (expireToken : ExpireToken) (ttl : ℤ) : List Bytes :=
  [ascii "MSETEX", decimal names.length] ++
    (names.zip values).flatMap (fun pair => [pair.1, pair.2]) ++
    [expireToken.text, decimalInt ttl]

/-! ## The commands -/

/-- `strconv.ParseInt` in base 10 for 64 bits. -/
def parseInt : Bytes → Option ℤ
  | [] => none
  | b :: digits =>
    if b = 45 then
      if digits = [] then none
      else (parseDigits (maxParseLen + 1) 0 digits).map fun n => -Int.ofNat n
    else
      let digits := if b = 43 then digits else b :: digits
      if digits = [] then none else (parseDigits maxParseLen 0 digits).map Int.ofNat

abbrev Values := List (Option Bytes)

def parseIntegerReply : Except Err Values → Except Err ℤ
  | .error e => .error e
  | .ok [value] =>
    match parseInt (value.getD []) with
    | some n => .ok n
    | none => .error .issue
  | .ok _ => .error .issue

def msetexSuccess : Except Err ℤ → Except Err Unit
  | .error e => .error e
  | .ok n => if n ≠ 1 then .error .issue else .ok ()

def unknownCommand : Except Err ℤ → Bool
  | .error e => hasPrefix e.text "ERR unknown command"
  | .ok _ => false

/-- Answers to requests, the last one of the list being the one at hand. -/
abbrev Peer := List (List Bytes) → Except Err Values

structure Session where
  groupWrite : GroupWritePath
  sent : List (List Bytes)

section

variable (peer : Peer)

def exec (args : List Bytes) : StateM Session (Except Err Values) := fun s =>
  (peer (s.sent ++ [args]), { s with sent := s.sent ++ [args] })

def eval (script digest : Bytes) (keys args : List Bytes) : StateM Session (Except Err Values) := do
  let values ← exec peer (evalArgv evalShaVerb digest keys args)
  match values with
  | .error e =>
    if hasPrefix e.text "NOSCRIPT" then exec peer (evalArgv evalVerb script keys args)
    else return .error e
  | .ok values => return .ok values

variable (scriptSHA1Hex : Bytes → Bytes) (names values : List Bytes) (expireToken : ExpireToken)
  (ttl : ℤ)

/-- `MSetEX` by its script, where the server has no MSETEX. -/
def msetexEval : StateM Session (Except Err Unit) := do
  let argv := values ++ [expireToken.text, decimalInt ttl]
  let script := ascii msetexFallbackScript
  let reply ← eval peer script (scriptSHA1Hex script) names argv
  return msetexSuccess (parseIntegerReply reply)

def storeGroupWrite (path : GroupWritePath) : StateM Session Unit :=
  modify fun s => { s with groupWrite := path }

def msetex : StateM Session (Except Err Unit) :=
  if names.length = 0 ∨ names.length ≠ values.length ∨ maxMSetEXPairs < names.length then
    return .error .issue
  else do
    if (← get).groupWrite = .lua then
      msetexEval peer scriptSHA1Hex names values expireToken ttl
    else
      let n := parseIntegerReply (← exec peer (msetexArgs names values expireToken ttl))
      if unknownCommand n then
        storeGroupWrite .lua
        msetexEval peer scriptSHA1Hex names values expireToken ttl
      else
        if n matches .ok _ then storeGroupWrite .native
        return msetexSuccess n

end

/-! ## The server -/

namespace Server

/-- A count, which the server takes in its one decimal spelling only. -/
def count (text : Bytes) : Option ℕ :=
  match parseLen maxParseLen text with
  | some (.ofNat n) => if decimal n = text then some n else none
  | _ => none

/-- EVAL and EVALSHA: KEYS and ARGV, split by numkeys. -/
def keysAndArgv : List Bytes → Option (List Bytes × List Bytes)
  | _verb :: _script :: numkeys :: rest =>
    match count numkeys with
    | some n => if rest.length < n then none else some (rest.take n, rest.drop n)
    | none => none
  | _ => none

/-- A group of pairs with the one expiry they share. -/
structure GroupWrite where
  pairs : List (Bytes × Bytes)
  expireToken : ExpireToken
  ttl : Bytes
  deriving DecidableEq

def takePairs : ℕ → List Bytes → Option (List (Bytes × Bytes) × List Bytes)
  | 0, rest => some ([], rest)
  | n + 1, key :: value :: rest => (takePairs n rest).map fun r => ((key, value) :: r.1, r.2)
  | _ + 1, _ => none

def expiry (token : Bytes) : Option ExpireToken :=
  if token = ascii "EX" then some .ex else if token = ascii "EXAT" then some .exat else none

/-- MSETEX: as many pairs as numkeys says, then the expiry. -/
def msetex : List Bytes → Option GroupWrite
  | _verb :: numkeys :: rest =>
    match count numkeys with
    | some (n + 1) =>
      match takePairs (n + 1) rest with
      | some (pairs, [token, ttl]) => (expiry token).map fun t => ⟨pairs, t, ttl⟩
      | _ => none
    | _ => none
  | _ => none

/-- The SET calls that come to the same. -/
def GroupWrite.sets (write : GroupWrite) : List (List Bytes) :=
  write.pairs.map fun pair =>
    [ascii "SET", pair.1, pair.2, write.expireToken.text, write.ttl]

/-- `redis.call` takes strings and numbers. -/
def argument : Lua.Value → Option Bytes
  | .string bytes => some bytes
  | .number n => some (decimalInt n)
  | .nil => none

/-- The commands a script has run so far, and one more. -/
def redisCall (calls : List (List Bytes)) (f : String) (args : List Lua.Value) :
    Option (List (List Bytes)) :=
  if f = "redis.call" then (args.mapM argument).map fun args => calls ++ [args] else none

def arrays (keys argv : List Bytes) (name : String) : Option (List Bytes) :=
  if name = "KEYS" then some keys else if name = "ARGV" then some argv else none

/-- A script over the KEYS and ARGV of a request: its calls and its value. -/
def runScript (script : Lua.Script) (request : List Bytes) :
    Option (List (List Bytes) × Lua.Value) :=
  match keysAndArgv request with
  | some (keys, argv) => Lua.run redisCall script (arrays keys argv) []
  | none => none

end Server

end MiddlewareUtils.SimpleRedis
