import MiddlewareUtils.Lib.Custody
import MiddlewareUtils.SimpleRedis.Moves

/-!
# Who has which socket

The unused list is a shelf and every command and every `Close` has a list of
sockets in its hands: the one it works on, the stale ones it is about to
close, the drained ones. What a process has is read off its program counter
(`Pc.hands`). No socket is in two places, in any run, panics included.

The two facts the later proofs use are about one step. A process touches
only the socket in its hands, or opens a new one (`Move.frame`); and it
hands sockets around without making copies (`Move.hands`).
-/

namespace MiddlewareUtils.SimpleRedis

open Lib

/-! ## What a process has in its hands -/

def Pc.hands : Pc → List ℕ
  | sweep stale reused => stale ++ reused.toList
  | io s _ _ | hangUp s _ | stopped s _ _ | release s _ _ | closing s _ => [s]
  | _ => []

def ClosePc.hands : ClosePc → List ℕ
  | each idleConns => idleConns
  | _ => []

def Proc.hands : Proc → List ℕ
  | exec _ pc => pc.hands
  | close pc => pc.hands

def handsOf : Option Proc → List ℕ
  | some proc => proc.hands
  | none => []

/-- The sockets process `p` has in hand. -/
def World.hands (w : World) (p : ℕ) : List ℕ := handsOf (w.procs p)

theorem World.hands_of {w : World} {p : ℕ} {proc : Proc} (hp : w.procs p = some proc) :
    w.hands p = proc.hands := by
  unfold World.hands
  rw [hp]
  rfl

theorem hands_update {procs : ℕ → Option Proc} {p : ℕ} {proc : Proc} :
    (fun q => handsOf (Function.update procs p (some proc) q)) =
      Function.update (fun q => handsOf (procs q)) p proc.hands := by
  funext q
  by_cases hq : q = p
  · subst hq
    rw [Function.update_self, Function.update_self]
    rfl
  · rw [Function.update_of_ne hq, Function.update_of_ne hq]

theorem afterDo_hands (cfg : Config) (s : ℕ) (reply : Decoded) (reusable : Bool) (verb : Verb) :
    (afterDo cfg s reply reusable verb).hands = [s] := by
  cases verb with
  | command => rfl
  | auth => cases reply <;> rfl
  | select => cases reply <;> rfl

/-! ## What a step does to sockets -/

variable {env : Env} {sr sr' : Pool} {c c' : Call} {pc pc' : Pc} {evs : List Event} {s t : ℕ}

theorem Pool.sockets_setSocket_of_ne {sock : Socket} (h : t ≠ s) :
    (sr.setSocket s sock).sockets t = sr.sockets t :=
  Function.update_of_ne h ..

theorem Pool.sockets_setSocket_self {sock : Socket} :
    (sr.setSocket s sock).sockets s = sock :=
  Function.update_self ..

theorem Pool.sockets_openConn_of_ne (h : t ≠ sr.nextSocket) :
    sr.openConn.sockets t = sr.sockets t :=
  Function.update_of_ne h ..

theorem Pool.sockets_openConn_self : sr.openConn.sockets sr.nextSocket = .fresh :=
  Function.update_self ..

theorem Pool.sockets_stopWatch_of_ne (h : t ≠ s) :
    (sr.stopWatch s).sockets t = sr.sockets t := by
  unfold Pool.stopWatch
  split
  · exact Pool.sockets_setSocket_of_ne h
  · rfl

theorem Pool.sockets_freeInUseTurn (cfg : Config) :
    (sr.freeInUseTurn cfg).sockets = sr.sockets ∧
      (sr.freeInUseTurn cfg).idleConns = sr.idleConns ∧
      (sr.freeInUseTurn cfg).nextSocket = sr.nextSocket ∧
      (sr.freeInUseTurn cfg).closed = sr.closed := by
  unfold Pool.freeInUseTurn
  split <;> exact ⟨rfl, rfl, rfl, rfl⟩

theorem Pool.stopWatch_same :
    (sr.stopWatch s).idleConns = sr.idleConns ∧ (sr.stopWatch s).nextSocket = sr.nextSocket ∧
      (sr.stopWatch s).closed = sr.closed := by
  unfold Pool.stopWatch
  split <;> exact ⟨rfl, rfl, rfl⟩

theorem DoMove.frame {ctx : Ctx} {args : List Bytes} {tag : Tag} {stage stage' : Stage}
    (h : DoMove env sr ctx args tag s stage sr' stage' evs) (ht : t ≠ s) :
    sr'.sockets t = sr.sockets t := by
  cases h with
  | armed | leftover | sent | sentBlind | arrive | replied =>
    exact Pool.sockets_setSocket_of_ne ht
  | _ => rfl

theorem DoMove.same {ctx : Ctx} {args : List Bytes} {tag : Tag} {stage stage' : Stage}
    (h : DoMove env sr ctx args tag s stage sr' stage' evs) :
    sr'.idleConns = sr.idleConns ∧ sr'.nextSocket = sr.nextSocket ∧ sr'.closed = sr.closed := by
  cases h <;> exact ⟨rfl, rfl, rfl⟩

theorem Move.frame (hm : Move env sr c pc sr' c' pc' evs) (ht : t ∉ pc.hands)
    (hlt : t < sr.nextSocket) : sr'.sockets t = sr.sockets t := by
  cases hm with
  | io hdo => exact hdo.frame fun h => ht (h ▸ List.mem_singleton_self _)
  | leave => exact Pool.sockets_stopWatch_of_ne fun h => ht (h ▸ List.mem_singleton_self _)
  | swept => exact Pool.sockets_setSocket_of_ne fun h => ht (h ▸ List.mem_cons_self)
  | hangUp | close | park | noRoom =>
    exact Pool.sockets_setSocket_of_ne fun h => ht (h ▸ List.mem_singleton_self _)
  | connected => exact Pool.sockets_openConn_of_ne (Nat.ne_of_lt hlt)
  | refund | freeTurn => rw [(sr.sockets_freeInUseTurn env.cfg).1]
  | _ => rfl

theorem Pool.taken_perm (cfg : Config) (now : ℤ) :
    (sr.stale cfg now ++ (sr.survivors cfg now).getLast?.toList ++
      (sr.survivors cfg now).dropLast).Perm sr.idleConns := by
  have hpop : ((sr.survivors cfg now).getLast?.toList ++ (sr.survivors cfg now).dropLast).Perm
      (sr.survivors cfg now) := by
    cases hlast : (sr.survivors cfg now).getLast? with
    | none =>
      rw [List.getLast?_eq_none_iff.mp hlast]
      exact List.Perm.refl _
    | some s =>
      refine List.perm_append_comm.trans ?_
      rw [Option.toList_some, List.dropLast_append_getLast? s hlast]
  rw [List.append_assoc]
  refine (hpop.append_left _).trans (List.perm_append_comm.trans ?_)
  exact List.filter_append_perm _ _

theorem Move.hands (hm : Move env sr c pc sr' c' pc' evs) :
    ((pc'.hands ++ sr'.idleConns).Subperm (pc.hands ++ sr.idleConns) ∧
        sr'.nextSocket = sr.nextSocket) ∨
      (pc = .dialing ∧ sr' = sr.openConn ∧ pc'.hands = [sr.nextSocket]) := by
  have hdrop : ∀ {l l' : List ℕ} (shelf : List ℕ), l'.Sublist l →
      (l' ++ shelf).Subperm (l ++ shelf) :=
    fun shelf h => (h.append_right shelf).subperm
  cases hm with
  | connected => exact .inr ⟨rfl, rfl, rfl⟩
  | io hdo =>
    rw [hdo.same.1]
    exact .inl ⟨List.Subperm.refl _, hdo.same.2.1⟩
  | leave =>
    rw [afterDo_hands, Pool.stopWatch_same.1]
    exact .inl ⟨List.Subperm.refl _, Pool.stopWatch_same.2.1⟩
  | taken => exact .inl ⟨(sr.taken_perm env.cfg env.now).subperm, rfl⟩
  | swept => exact .inl ⟨hdrop _ (List.sublist_cons_self _ _), rfl⟩
  | hangUp | close => exact .inl ⟨hdrop _ (List.nil_sublist _), rfl⟩
  | park =>
    refine .inl ⟨?_, rfl⟩
    show (sr.idleConns ++ [_]).Subperm ([_] ++ sr.idleConns)
    exact List.perm_append_comm.subperm
  | refund | freeTurn =>
    rw [(sr.sockets_freeInUseTurn env.cfg).2.1]
    exact .inl ⟨List.Subperm.refl _, (sr.sockets_freeInUseTurn env.cfg).2.2.1⟩
  | _ => exact .inl ⟨List.Subperm.refl _, rfl⟩

theorem Unwind.frame (hm : Unwind sr pc sr' pc') (ht : t ∉ pc.hands) :
    sr'.sockets t = sr.sockets t := by
  cases hm with
  | command | handshake =>
    exact Pool.sockets_stopWatch_of_ne fun h => ht (h ▸ List.mem_singleton_self _)
  | _ => rfl

theorem Unwind.hands (hm : Unwind sr pc sr' pc') :
    (pc'.hands ++ sr'.idleConns).Subperm (pc.hands ++ sr.idleConns) ∧
      sr'.nextSocket = sr.nextSocket := by
  cases hm with
  | command =>
    rw [Pool.stopWatch_same.1]
    exact ⟨List.Subperm.refl _, Pool.stopWatch_same.2.1⟩
  | handshake =>
    rw [Pool.stopWatch_same.1]
    exact ⟨((List.nil_sublist _).append_right _).subperm, Pool.stopWatch_same.2.1⟩
  | hangUp => exact ⟨((List.nil_sublist _).append_right _).subperm, rfl⟩
  | _ => exact ⟨List.Subperm.refl _, rfl⟩

theorem CloseMove.frame {pc pc' : ClosePc} (hm : CloseMove sr pc sr' pc') (ht : t ∉ pc.hands) :
    sr'.sockets t = sr.sockets t := by
  cases hm with
  | close => exact Pool.sockets_setSocket_of_ne fun h => ht (h ▸ List.mem_cons_self)
  | _ => rfl

theorem CloseMove.hands {pc pc' : ClosePc} (hm : CloseMove sr pc sr' pc') :
    (pc'.hands ++ sr'.idleConns).Subperm (pc.hands ++ sr.idleConns) ∧
      sr'.nextSocket = sr.nextSocket := by
  cases hm with
  | drain => exact ⟨List.perm_append_comm.subperm, rfl⟩
  | close => exact ⟨((List.sublist_cons_self _ _).append_right _).subperm, rfl⟩
  | _ => exact ⟨List.Subperm.refl _, rfl⟩

/-! ## No socket is in two places -/

structure SocketInv (w : World) : Prop where
  known : w.Known
  custody : Custody w.hands w.pool.idleConns
  shelved : ∀ s ∈ w.pool.idleConns, s < w.pool.nextSocket
  held : ∀ p, ∀ s ∈ w.hands p, s < w.pool.nextSocket

namespace SocketInv

variable {w w' : World} {p : ℕ} {proc proc' : Proc}

theorem init (cfg : Config) : SocketInv (World.init cfg) where
  known := .init cfg
  custody := ⟨fun _ => List.nodup_nil, fun _ _ _ h _ => absurd h List.not_mem_nil⟩
  shelved := fun _ h => absurd h List.not_mem_nil
  held := fun _ _ h => absurd h List.not_mem_nil

theorem not_mem_of_ne (h : SocketInv w) {q : ℕ} (hq : q ≠ p) (hs : s ∈ w.hands q) :
    s ∉ w.hands p :=
  fun hp => hq (h.custody.apart q p s hs hp)

theorem elsewhere (h : SocketInv w) (hp : w.procs p = some proc) {sockets : ℕ → Socket}
    (hframe : ∀ t, t ∉ proc.hands → t < w.pool.nextSocket → sockets t = w.pool.sockets t) :
    (∀ t ∈ w.pool.idleConns, sockets t = w.pool.sockets t) ∧
      ∀ q x, q ≠ p → w.procs q = some x → ∀ t ∈ x.hands, sockets t = w.pool.sockets t := by
  have hhands := World.hands_of hp
  refine ⟨fun t ht => ?_, fun q x hqp hq t ht => ?_⟩
  · exact hframe t (fun hmem => h.custody.not_mem_shelf (hhands ▸ hmem) ht) (h.shelved t ht)
  · have hmem : t ∈ w.hands q := World.hands_of hq ▸ ht
    exact hframe t (fun hp' => h.not_mem_of_ne hqp hmem (hhands ▸ hp')) (h.held q t hmem)

theorem hands_of_update (hprocs : w'.procs = Function.update w.procs p (some proc')) :
    w'.hands = Function.update w.hands p proc'.hands := by
  unfold World.hands
  rw [hprocs]
  exact hands_update

theorem update (h : SocketInv w) (hp : w.procs p = some proc)
    (hprocs : w'.procs = Function.update w.procs p (some proc'))
    (hsub : (proc'.hands ++ w'.pool.idleConns).Subperm (proc.hands ++ w.pool.idleConns))
    (hnext : w'.pool.nextSocket = w.pool.nextSocket) (hknown : w'.Known) : SocketInv w' := by
  have hhands := hands_of_update hprocs
  have hmade : ∀ s ∈ proc'.hands ++ w'.pool.idleConns, s < w.pool.nextSocket := by
    intro s hs
    rcases List.mem_append.mp (hsub.subset hs) with hs | hs
    · exact h.held p s (World.hands_of hp ▸ hs)
    · exact h.shelved s hs
  refine ⟨hknown, ?_, fun s hs => ?_, fun q s hs => ?_⟩
  · rw [hhands]
    exact h.custody.move (World.hands_of hp ▸ hsub)
  · rw [hnext]
    exact hmade s (List.mem_append.mpr (Or.inr hs))
  · rw [hnext]
    rw [hhands] at hs
    by_cases hq : q = p
    · subst hq
      rw [Function.update_self] at hs
      exact hmade s (List.mem_append.mpr (Or.inl hs))
    · rw [Function.update_of_ne hq] at hs
      exact h.held q s hs

theorem opened (h : SocketInv w) (hprocs : w'.procs = Function.update w.procs p (some proc'))
    (hpool : w'.pool = w.pool.openConn) (hhand : proc'.hands = [w.pool.nextSocket])
    (hknown : w'.Known) : SocketInv w' := by
  have hhands := hands_of_update hprocs
  rw [hhand] at hhands
  refine ⟨hknown, ?_, fun s hs => ?_, fun q s hs => ?_⟩
  · rw [hhands, hpool]
    exact h.custody.fresh (fun q hq => Nat.lt_irrefl _ (h.held q _ hq))
      fun hs => Nat.lt_irrefl _ (h.shelved _ hs)
  · rw [hpool] at hs ⊢
    exact Nat.lt_succ_of_lt (h.shelved s hs)
  · rw [hhands] at hs
    rw [hpool]
    by_cases hq : q = p
    · subst hq
      rw [Function.update_self, List.mem_singleton] at hs
      rw [hs]
      exact Nat.lt_succ_self _
    · rw [Function.update_of_ne hq] at hs
      exact Nat.lt_succ_of_lt (h.held q s hs)

theorem same (h : SocketInv w) (hprocs : w'.procs = w.procs)
    (hidle : w'.pool.idleConns = w.pool.idleConns)
    (hnext : w'.pool.nextSocket = w.pool.nextSocket) (hknown : w'.Known) : SocketInv w' := by
  have hhands : w'.hands = w.hands := by
    unfold World.hands
    rw [hprocs]
  refine ⟨hknown, ?_, ?_, ?_⟩
  · rw [hhands, hidle]
    exact h.custody
  · rw [hidle, hnext]
    exact h.shelved
  · rw [hhands, hnext]
    exact h.held

theorem hands_spawn (h : SocketInv w) (hproc : proc.hands = []) :
    (w.spawn proc).hands = w.hands := by
  have hupd : (w.spawn proc).hands = Function.update w.hands w.next proc.hands :=
    hands_of_update rfl
  have hold : w.hands w.next = [] := by
    unfold World.hands
    rw [h.known w.next (Nat.le_refl _)]
    rfl
  rw [hupd, hproc, ← hold, Function.update_eq_self]

theorem spawned (h : SocketInv w) (hproc : proc.hands = []) : SocketInv (w.spawn proc) := by
  have hhands := h.hands_spawn hproc
  exact ⟨h.known.spawned, hhands ▸ h.custody, h.shelved, hhands ▸ h.held⟩

theorem step (h : SocketInv w) {a : Action} (hs : w.step a = some w') : SocketInv w' := by
  have hk := h.known.step hs
  cases World.step_cases hs with
  | exec | close => exact h.spawned rfl
  | run hp hm =>
    rcases hm.hands with ⟨hsub, hnext⟩ | ⟨_, hpool, hhand⟩
    · exact h.update hp rfl hsub hnext hk
    · exact h.opened rfl hpool hhand hk
  | runClose hp hm => exact h.update hp rfl hm.hands.1 hm.hands.2 hk
  | panic hp hm => exact h.update hp rfl hm.hands.1 hm.hands.2 hk
  | endCtx _ hp => exact h.update hp rfl (List.Subperm.refl _) rfl hk
  | tick | startWatch | watchClose | answer | cut => exact h.same rfl rfl rfl hk

end SocketInv

end MiddlewareUtils.SimpleRedis
