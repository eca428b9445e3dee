import MiddlewareUtils.Proofs.RespRoundTrip
import MiddlewareUtils.SimpleRedis.MSetEX

/-!
# The Lua fallback writes what MSETEX was asked to write

Three layouts are involved. Native MSETEX alternates names and values and
ends with the expiry. EVAL puts all names first and all values after them,
and a number says where the server is to cut. The script then takes the
i-th name with the i-th argument, both counted from 1, and looks for the
expiry from the end of ARGV.

The middle layout is undone by the count alone (`keysAndArgv_evalArgv`), so
the script sees the names as KEYS and the values with two more strings as
ARGV. What is left is its loop: after the round of `i` it has written the
first `i` pairs, and it stops at the number of names, short of the two
strings at the end because there are as many values as names.
-/

namespace MiddlewareUtils.SimpleRedis

open Lib

namespace Server

/-! ## Reading the argument lists back -/

theorem count_decimal {n : ℕ} (h : n ≤ maxParseLen) : count (decimal n) = some n := by
  rw [count, parseLen_of_fits h]
  exact if_pos rfl

theorem keysAndArgv_evalArgv {verb script : Bytes} {keys args : List Bytes}
    (h : keys.length ≤ maxParseLen) :
    keysAndArgv (evalArgv verb script keys args) = some (keys, args) := by
  simp [keysAndArgv, evalArgv, count_decimal h]

theorem takePairs_flatMap (pairs : List (Bytes × Bytes)) (rest : List Bytes) :
    takePairs pairs.length (pairs.flatMap (fun pair => [pair.1, pair.2]) ++ rest) =
      some (pairs, rest) := by
  induction pairs with
  | nil => rfl
  | cons pair pairs ih => simp [takePairs, ih]

theorem expiry_text (expireToken : ExpireToken) : expiry expireToken.text = some expireToken := by
  cases expireToken <;> decide

theorem msetex_msetexArgs {names values : List Bytes} {expireToken : ExpireToken} {ttl : ℤ}
    (hlen : names.length = values.length) (hpos : 1 ≤ names.length)
    (hmax : names.length ≤ maxParseLen) :
    msetex (msetexArgs names values expireToken ttl) =
      some ⟨names.zip values, expireToken, decimalInt ttl⟩ := by
  obtain ⟨n, hn⟩ : ∃ n, names.length = n + 1 := ⟨names.length - 1, by omega⟩
  have hzip : (names.zip values).length = n + 1 := by simp [← hlen, hn]
  have hpairs := takePairs_flatMap (names.zip values) [expireToken.text, decimalInt ttl]
  rw [hzip] at hpairs
  simp [msetex, msetexArgs, hn, count_decimal (hn ▸ hmax), hpairs, expiry_text]

/-! ## The script -/

section

variable {keys values : List Bytes} {token ttl : Bytes}

def loopEnv (keys values : List Bytes) (token ttl : Bytes) : Lua.Env :=
  .bind (.bind ⟨arrays keys (values ++ [token, ttl]), fun _ => .nil⟩ "token" (.string token)) "ttl"
    (.string ttl)

def setArgs (token ttl : Bytes) (pair : Bytes × Bytes) : List Bytes :=
  [ascii "SET", pair.1, pair.2, token, ttl]

theorem execBlock_setPair {k : ℕ} {pair : Bytes × Bytes} {calls : List (List Bytes)}
    (hpair : (keys.zip values)[k]? = some pair) :
    ∃ env, Lua.execBlock redisCall [setPair]
        ((loopEnv keys values token ttl).bind "i" (.number (k + 1))) calls =
      some (calls ++ [setArgs token ttl pair], .next env) := by
  obtain ⟨hkey, hvalue⟩ := List.getElem?_zip_eq_some.mp hpair
  have hargv : (values ++ [token, ttl])[k]? = some pair.2 := by
    rw [List.getElem?_append_left (List.getElem?_eq_some_iff.mp hvalue).1, hvalue]
  refine ⟨_, @Lua.execBlock_call _ _ _ _ _ _ [.string (ascii "SET"), .string pair.1,
    .string pair.2, .string token, .string ttl] _ _ ?_ rfl⟩
  simp [Lua.evalExpr, loopEnv, arrays, Lua.Env.arrays_bind, Lua.at1_succ hkey, Lua.at1_succ hargv,
    ascii]

theorem forLoop_setPair (hlen : keys.length = values.length) :
    Lua.forLoop (fun i s => Lua.execBlock redisCall [setPair]
      ((loopEnv keys values token ttl).bind "i" (.number i)) s) keys.length 1 [] =
    some ((keys.zip values).map (setArgs token ttl), none) := by
  have hzip : (keys.zip values).length = keys.length := by
    rw [List.length_zip]
    omega
  -- Before the round of `i`, the first `i - 1` pairs are written.
  have hround : ∀ (i : ℤ) (calls : List (List Bytes)), 1 ≤ i → i < 1 + keys.length →
      calls = ((keys.zip values).take (i - 1).toNat).map (setArgs token ttl) →
      ∃ calls' env, Lua.execBlock redisCall [setPair]
          ((loopEnv keys values token ttl).bind "i" (.number i)) calls = some (calls', .next env) ∧
        calls' = ((keys.zip values).take (i + 1 - 1).toNat).map (setArgs token ttl) := by
    intro i calls hi hlt hcalls
    obtain ⟨k, rfl⟩ : ∃ k : ℕ, i = k + 1 := ⟨(i - 1).toNat, by omega⟩
    have hk : k < (keys.zip values).length := by omega
    have hpair := List.getElem?_eq_getElem hk
    obtain ⟨env, hrun⟩ := execBlock_setPair hpair
    refine ⟨_, env, hrun, ?_⟩
    rw [hcalls, show ((k : ℤ) + 1 - 1).toNat = k by omega,
      show ((k : ℤ) + 1 + 1 - 1).toNat = k + 1 by omega, List.take_add_one, hpair]
    simp
  obtain ⟨calls, hrun, hcalls⟩ := Lua.forLoop_inv (s := []) hround rfl
  rw [hrun, hcalls, List.take_of_length_le (by omega)]

theorem run_msetexFallback (hlen : keys.length = values.length) :
    Lua.run redisCall msetexFallback (arrays keys (values ++ [token, ttl])) [] =
      some ((keys.zip values).map (setArgs token ttl), .number 1) := by
  have htoken : Lua.at1 (values ++ [token, ttl]) (values.length + 2 - 1) = .string token := by
    rw [show (values.length + 2 - 1 : ℤ) = (values.length : ℕ) + 1 by ring]
    exact Lua.at1_succ (by simp)
  have httl : Lua.at1 (values ++ [token, ttl]) (values.length + 2) = .string ttl := by
    rw [show (values.length + 2 : ℤ) = (values.length + 1 : ℕ) + 1 by push_cast; ring]
    exact Lua.at1_succ (by simp)
  have hblock : Lua.execBlock redisCall msetexFallback
      ⟨arrays keys (values ++ [token, ttl]), fun _ => .nil⟩ [] =
      some ((keys.zip values).map (setArgs token ttl), .returned (.number 1)) := by
    rw [msetexFallback, Lua.execBlock_local (v := .string token),
      Lua.execBlock_local (v := .string ttl),
      Lua.execBlock_for (m := 1) (n := keys.length) rfl, Lua.execBlock_return rfl]
    · simp [Lua.evalExpr, arrays, Lua.Env.arrays_bind]
    · rw [add_sub_cancel_right, Int.toNat_natCast]
      exact forLoop_setPair hlen
    · simp [Lua.evalExpr, arrays, Lua.Env.arrays_bind, httl]
    · simp [Lua.evalExpr, arrays, htoken]
  rw [Lua.run, hblock]

end

theorem runScript_evalArgv {verb script : Bytes} {names values : List Bytes}
    {expireToken : ExpireToken} {ttl : ℤ} (hlen : names.length = values.length)
    (hmax : names.length ≤ maxParseLen) :
    runScript msetexFallback
        (evalArgv verb script names (values ++ [expireToken.text, decimalInt ttl])) =
      some (GroupWrite.sets ⟨names.zip values, expireToken, decimalInt ttl⟩, .number 1) := by
  rw [runScript, keysAndArgv_evalArgv hmax]
  exact run_msetexFallback hlen

end Server

/-! ## What a call sends -/

section

variable {α β : Type} {peer : Peer} {scriptSHA1Hex : Bytes → Bytes} {names values : List Bytes}
  {expireToken : ExpireToken} {ttl : ℤ}

/-- All that `m` sends is `P`, and `n` requests are the fewest it sends. -/
def Sends (P : List Bytes → Prop) (n : ℕ) (m : StateM Session α) : Prop :=
  ∀ s, ∃ requests, (m s).2.sent = s.sent ++ requests ∧ n ≤ requests.length ∧
    ∀ request ∈ requests, P request

namespace Sends

variable {P : List Bytes → Prop} {m : StateM Session α} {f : α → StateM Session β} {k n : ℕ}

theorem silent (h : ∀ s, (m s).2.sent = s.sent) : Sends P 0 m := fun s =>
  ⟨[], (h s).trans (List.append_nil _).symm, le_rfl, nofun⟩

theorem exec {args : List Bytes} (h : P args) : Sends P 1 (exec peer args) := fun _ =>
  ⟨[args], rfl, le_rfl, by simpa using h⟩

theorem weaken (h : Sends P n m) (hk : k ≤ n) : Sends P k m := fun s => by
  obtain ⟨requests, hsent, hn, hP⟩ := h s
  exact ⟨requests, hsent, hk.trans hn, hP⟩

theorem imp {Q : List Bytes → Prop} (h : Sends P n m) (hQ : ∀ request, P request → Q request) :
    Sends Q n m := fun s => by
  obtain ⟨requests, hsent, hn, hP⟩ := h s
  exact ⟨requests, hsent, hn, fun request hmem => hQ request (hP request hmem)⟩

theorem bind (hm : Sends P n m) (hf : ∀ a, Sends P 0 (f a)) : Sends P n (m >>= f) := fun s => by
  obtain ⟨first, hfirst, hn, hP⟩ := hm s
  obtain ⟨rest, hrest, _, hP'⟩ := hf (m s).1 (m s).2
  refine ⟨first ++ rest, ?_, by rw [List.length_append]; omega, fun request hmem => ?_⟩
  · rw [← List.append_assoc, ← hfirst]
    exact hrest
  · rcases List.mem_append.mp hmem with hmem | hmem
    · exact hP request hmem
    · exact hP' request hmem

end Sends

/-- A request to run the fallback on these names and values. -/
inductive RunsFallback (scriptSHA1Hex : Bytes → Bytes) (names values : List Bytes)
    (expireToken : ExpireToken) (ttl : ℤ) : List Bytes → Prop
  | digest : RunsFallback scriptSHA1Hex names values expireToken ttl
      (evalArgv evalShaVerb (scriptSHA1Hex (ascii msetexFallback.text)) names
        (values ++ [expireToken.text, decimalInt ttl]))
  | script : RunsFallback scriptSHA1Hex names values expireToken ttl
      (evalArgv evalVerb (ascii msetexFallback.text) names
        (values ++ [expireToken.text, decimalInt ttl]))

theorem eval_sends {P : List Bytes → Prop} {script digest : Bytes} {keys args : List Bytes}
    (hdigest : P (evalArgv evalShaVerb digest keys args))
    (hscript : P (evalArgv evalVerb script keys args)) :
    Sends P 1 (eval peer script digest keys args) := by
  refine .bind (.exec hdigest) fun values => ?_
  cases values with
  | ok => exact .silent fun _ => rfl
  | error e =>
    dsimp only
    split
    · exact .weaken (.exec hscript) (Nat.zero_le 1)
    · exact .silent fun _ => rfl

theorem msetexEval_sends : Sends (RunsFallback scriptSHA1Hex names values expireToken ttl) 1
    (msetexEval peer scriptSHA1Hex names values expireToken ttl) := by
  refine .bind (eval_sends ?_ ?_) fun reply => .silent fun _ => rfl
  · rw [← msetexFallback_text]
    exact .digest
  · rw [← msetexFallback_text]
    exact .script

theorem msetex_sends : Sends (fun request => request = msetexArgs names values expireToken ttl ∨
    RunsFallback scriptSHA1Hex names values expireToken ttl request) 0
    (msetex peer scriptSHA1Hex names values expireToken ttl) := by
  have heval : ∀ k ≤ 1, Sends (fun request => request = msetexArgs names values expireToken ttl ∨
      RunsFallback scriptSHA1Hex names values expireToken ttl request) k
      (msetexEval peer scriptSHA1Hex names values expireToken ttl) := by
    intro k hk
    exact (msetexEval_sends.weaken hk).imp fun _ h => Or.inr h
  unfold msetex
  split
  · exact .silent fun _ => rfl
  · refine .bind (.silent fun _ => rfl) fun session => ?_
    split
    · exact heval 0 (Nat.zero_le 1)
    · refine .bind (.weaken (.exec (Or.inl rfl)) (Nat.zero_le 1)) fun reply => ?_
      dsimp only
      split
      · exact .bind (.silent fun _ => rfl) fun _ => heval 0 (Nat.zero_le 1)
      · -- Only the cached path is left to write, and the answer to give.
        split
        · exact .silent fun _ => rfl
        · exact .silent fun _ => rfl

end

/-! ## The result -/

/-- The fallback sends its script with the arguments of MSETEX, and the script
makes the writes MSETEX would. -/
theorem fallback_writes_native {names values : List Bytes} (expireToken : ExpireToken) (ttl : ℤ)
    (hlen : names.length = values.length) (hpos : 1 ≤ names.length)
    (hmax : names.length ≤ maxMSetEXPairs) :
    ∃ write : Server.GroupWrite,
      Server.msetex (msetexArgs names values expireToken ttl) = some write ∧
      write.pairs = names.zip values ∧ write.expireToken = expireToken ∧
      write.ttl = decimalInt ttl ∧
      ∀ (peer : Peer) (scriptSHA1Hex : Bytes → Bytes), Sends
        (fun request => RunsFallback scriptSHA1Hex names values expireToken ttl request ∧
          Server.runScript msetexFallback request = some (write.sets, .number 1))
        1 (msetexEval peer scriptSHA1Hex names values expireToken ttl) := by
  have hfits : names.length ≤ maxParseLen := hmax.trans (by decide)
  refine ⟨_, Server.msetex_msetexArgs hlen hpos hfits, rfl, rfl, rfl, fun peer sha1 => ?_⟩
  refine msetexEval_sends.imp fun request hruns => ⟨hruns, ?_⟩
  cases hruns with
  | digest => exact Server.runScript_evalArgv hlen hfits
  | script => exact Server.runScript_evalArgv hlen hfits

/-- A name that comes twice, and a value that looks like an expiry. -/
theorem fallback_writes_native_repeated :
    ∃ write : Server.GroupWrite,
      Server.msetex (msetexArgs [ascii "a", ascii "b", ascii "a"] [ascii "EX", [], [0, 255]] .exat
        1700000000) = some write ∧
      write.sets = [[ascii "SET", ascii "a", ascii "EX", ascii "EXAT", ascii "1700000000"],
        [ascii "SET", ascii "b", [], ascii "EXAT", ascii "1700000000"],
        [ascii "SET", ascii "a", [0, 255], ascii "EXAT", ascii "1700000000"]] ∧
      ∀ (peer : Peer) (scriptSHA1Hex : Bytes → Bytes), Sends
        (fun request => RunsFallback scriptSHA1Hex [ascii "a", ascii "b", ascii "a"]
            [ascii "EX", [], [0, 255]] .exat 1700000000 request ∧
          Server.runScript msetexFallback request = some (write.sets, .number 1))
        1 (msetexEval peer scriptSHA1Hex [ascii "a", ascii "b", ascii "a"]
          [ascii "EX", [], [0, 255]] .exat 1700000000) := by
  obtain ⟨⟨pairs, expireToken, ttl⟩, hmsetex, hpairs, htoken, httl, hsends⟩ :=
    @fallback_writes_native [ascii "a", ascii "b", ascii "a"] [ascii "EX", [], [0, 255]] .exat
      1700000000 rfl (by decide) (by decide)
  dsimp only at hpairs htoken httl
  subst hpairs htoken httl
  exact ⟨_, hmsetex, by decide +kernel, hsends⟩

end MiddlewareUtils.SimpleRedis
