import MiddlewareUtils.Lib.Keyed
import MiddlewareUtils.Lib.Simulation
import MiddlewareUtils.TokenBucket.Clock

/-!
# The two stores of the token bucket

`memory.go` keeps the buckets in a map and expires them when it next looks;
`redis.go` hands the whole consume to `lua.go`'s script and lets Redis
expire the hash. They share the clock and nothing else: the Lua program
reads its bucket out of the array `HGETALL` returns, seeds it by itself, and
spells the arithmetic with `math.min`, so it is translated on its own and
not as a call of `consumeOne`.

Instants are nanoseconds; `UnixMicro` rounds them down. A Redis string that
spells a number is that number, and EVAL runs the script once and whole.
Redis drops a key at the very instant EXPIRE set for it, which the model
makes a separate operation run when the clock moves (`Keys.at`). Go picks
the order of a `range` over a map: the key `dropOne` meets first is a
parameter.
-/

namespace MiddlewareUtils.TokenBucket

open Lib

/-- One call of `Allow`: the key, what the store's clock reads, and
`ctx.Err()` at entry. -/
structure Request where
  key : String
  now : ℤ
  ctxErr : Option String

/-- `time.Time.UnixMicro`. -/
def unixMicro (now : ℤ) : ℤ := now / microsecond

/-- What `Allow` returns: an error text, or allowed and the wait. -/
abbrev Answer := Except String (Bool × ℤ)

/-- `tokens` and `last` as the store now holds them for a key. -/
abbrev Stored := Option (ℚ × ℚ)

/-! ## In process -/

structure MemEntry where
  bucket : Bucket
  expireAt : ℤ

/-- `map[string]*memEntry`. -/
abbrev Buckets := AList fun _ : String => MemEntry

def maxMemorySources : ℕ := 65536

namespace Memory

/-- `now.Before(entry.expireAt)`. -/
def live (now : ℤ) (entry : MemEntry) : Bool := decide (now < entry.expireAt)

def dropExpired (now : ℤ) (buckets : Buckets) : Buckets := keep (live now) buckets

def dropOne (first : Buckets → String) (now : ℤ) (buckets : Buckets) : Buckets :=
  let buckets := dropExpired now buckets
  if size buckets < maxMemorySources then buckets
  else buckets.erase (first buckets)

/-- The entry `Allow` consumes from, and the map it is then in. -/
def entryFor (c : ClockConfig) (first : Buckets → String) (buckets : Buckets)
    (key : String) (now : ℤ) : MemEntry × Buckets :=
  -- the expired entry of this key goes first, then it counts as missing
  let found := buckets.lookup key
  let buckets := if found.any (!live now ·) then buckets.erase key else buckets
  match found.filter (live now) with
  | some entry => (entry, buckets)
  | none =>
    let buckets := dropExpired now buckets
    let buckets :=
      if maxMemorySources ≤ size buckets then dropOne first now buckets else buckets
    let entry : MemEntry := ⟨⟨c.burst, unixMicro now⟩, 0⟩
    (entry, buckets.insert key entry)

/-- `Memory.Allow` under the lock. -/
def allow (c : ClockConfig) (first : Buckets → String) (buckets : Buckets)
    (r : Request) : Buckets × Answer :=
  match r.ctxErr with
  | some err => (buckets, .error err)
  | none =>
    let (entry, buckets) := entryFor c first buckets r.key r.now
    let out := consumeOne entry.bucket c.limitPerMicro c.burst (unixMicro r.now) c.maxDelayMicro
    let wait := waitDuration out.waitMicro
    (buckets.insert r.key ⟨out.bucket, r.now + c.ttl⟩,
      .ok (allowedFromWait wait c.maxDelay, wait))

def stored (buckets : Buckets) (key : String) : Stored :=
  (buckets.lookup key).map fun entry => (entry.bucket.tokens, (entry.bucket.last : ℚ))

end Memory

/-! ## In Redis -/

/-- A Redis string: a text, or the decimal spelling of a number. -/
inductive Value where
  | text (s : String)
  | number (q : ℚ)
  deriving DecidableEq

/-- Lua's `tonumber`, and Go's `ParseFloat`, on what a script wrote. -/
def Value.tonumber : Value → Option ℚ
  | .text _ => none
  | .number q => some q

/-- A hash with its fields in the order they were first set. -/
structure Hash where
  fields : List (String × ℚ)
  expireAt : Option ℚ

/-- The key space: every key the limiters use is a hash. -/
abbrev Keys := String → Option Hash

def setField (name : String) (v : ℚ) : List (String × ℚ) → List (String × ℚ)
  | [] => [(name, v)]
  | (n, x) :: rest => if n = name then (n, v) :: rest else (n, x) :: setField name v rest

namespace Keys

/-- The key space when the clock reads `now`: what expired is gone. -/
def «at» (keys : Keys) (now : ℤ) : Keys := fun key =>
  (keys key).filter fun h => h.expireAt.all fun e => decide ((now : ℚ) < e)

def hgetall (keys : Keys) (key : String) : List Value :=
  match keys key with
  | none => []
  | some h => h.fields.flatMap fun f => [.text f.1, .number f.2]

/-- `HSET key last l tokens t`; the expiry of an existing key stays. -/
def hset (keys : Keys) (key : String) (last tokens : ℚ) : Keys :=
  let h := (keys key).getD ⟨[], none⟩
  Function.update keys key
    (some { h with fields := setField "tokens" tokens (setField "last" last h.fields) })

def expire (keys : Keys) (key : String) (now : ℤ) (ttl : ℚ) : Keys :=
  Function.update keys key
    ((keys key).map fun h => { h with expireAt := some (now + ttl * second) })

end Keys

/-- `KEYS[1]` and `ARGV`, after `tonumber`. -/
structure Argv where
  limit : ℚ
  burst : ℚ
  ttl : ℚ
  t : ℚ
  maxDelay : ℚ

/-- `bucket.last` and `bucket.tokens` after the first `if`; `none` is the
script error of a `nil` that reaches the arithmetic. -/
def scriptBucket (argv : Argv) (rlSource : List Value) : Option (ℚ × ℚ) :=
  if rlSource.length = 4 then
    match (rlSource[1]?).bind Value.tonumber, (rlSource[3]?).bind Value.tonumber with
    | some last, some tokens => some (last, tokens)
    | _, _ => none
  else some (argv.t, argv.burst)

/-- The arithmetic of the script: `persistLast`, `tokens` and
`wait_duration` from the bucket it read. -/
def scriptConsume (argv : Argv) (bucketLast bucketTokens : ℚ) : ℚ × ℚ × ℚ :=
  let last := if argv.t < bucketLast then argv.t else bucketLast
  let elapsed := argv.t - last
  let delta := argv.limit * elapsed
  let tokens := bucketTokens + delta
  let tokens := min tokens argv.burst
  let tokens := tokens - 1
  let persistLast := if argv.t > bucketLast then argv.t else bucketLast
  if tokens < 0 then
    let waitDuration := (tokens * -1) / argv.limit
    if waitDuration > argv.maxDelay then
      (persistLast, min (tokens + 1) argv.burst, waitDuration)
    else (persistLast, tokens, waitDuration)
  else (persistLast, tokens, 0)

/-- `EVAL allowScript 1 key …` at `now`: the key space it leaves and the
array it returns. -/
def allowScript (keys : Keys) (key : String) (now : ℤ) (argv : Argv) :
    Keys × Except String (List Value) :=
  match scriptBucket argv (keys.hgetall key) with
  | none => (keys, .error "ERR attempt to perform arithmetic on a nil value")
  | some (bucketLast, bucketTokens) =>
    let (persistLast, tokens, waitDuration) := scriptConsume argv bucketLast bucketTokens
    let keys := keys.hset key persistLast tokens
    let keys := keys.expire key now argv.ttl
    (keys, .ok [.text "true", .number waitDuration, .number tokens])

namespace Redis

def errEvalLen : String := "tokenbucket: eval reply must have 3 fields"

def errEvalWait : String := "tokenbucket: eval wait is not a number"

/-- What `Allow` makes of the reply. -/
def answer (c : ClockConfig) (values : List Value) : Answer :=
  if values.length ≠ 3 then .error errEvalLen
  else
    match (values[1]?).bind Value.tonumber with
    | none => .error errEvalWait
    | some waitMicro =>
      let wait := waitDuration waitMicro
      .ok (allowedFromWait wait c.maxDelay, wait)

def argv (c : ClockConfig) (now : ℤ) : Argv :=
  ⟨c.limitPerMicro, c.burst, c.ttlSeconds, unixMicro now, c.maxDelayMicro⟩

def allow (c : ClockConfig) (keys : Keys) (r : Request) : Keys × Answer :=
  match r.ctxErr with
  | some err => (keys, .error err)
  | none =>
    match allowScript (keys.at r.now) r.key r.now (argv c r.now) with
    | (keys, .error err) => (keys, .error err)
    | (keys, .ok values) => (keys, answer c values)

def stored (keys : Keys) (key : String) : Stored := do
  let h ← keys key
  let tokens ← h.fields.lookup "tokens"
  let last ← h.fields.lookup "last"
  some (tokens, last)

end Redis

/-! ## Both, call by call

A call is observed by what it answered and by what its key holds when it
returned, at the instant the call read. -/

/-- A call, with what the store holds for its key then. -/
def Memory.observe (c : ClockConfig) (first : Buckets → String) (buckets : Buckets)
    (r : Request) : Buckets × (Answer × Stored) :=
  let (buckets, a) := Memory.allow c first buckets r
  (buckets, (a, Memory.stored (Memory.dropExpired r.now buckets) r.key))

def Redis.observe (c : ClockConfig) (keys : Keys) (r : Request) : Keys × (Answer × Stored) :=
  let (keys, a) := Redis.allow c keys r
  (keys, (a, Redis.stored (keys.at r.now) r.key))

end MiddlewareUtils.TokenBucket
