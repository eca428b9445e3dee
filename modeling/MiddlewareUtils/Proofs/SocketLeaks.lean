import MiddlewareUtils.Proofs.PoolTurns
import MiddlewareUtils.Proofs.SocketOwners

/-!
# No socket is lost

`SocketOwners` says that no socket is in two places. This file says that
none is in no place: a socket that was opened and is not closed is on the
unused list or in somebody's hands, as long as no panic strikes a handshake.
And it says that the unused list is fit for use: nothing on it is closed,
and nothing is about to be.

The second is where the context callbacks come in. `watchConnClose` closes
the socket from another goroutine once the context is done, and stopping it
comes too late when it has started. It can have started only if the context
of the command is done, so `runOnConn`, which looks at the context once more
after the callback is stopped, does not release such a socket as reusable
(`Move.intact`).

For `Close`: the flag is set before the list is drained, and nothing is
parked once the flag is set. After the call that set the flag has drained
the list it stays empty, and a command that starts later gives up before it
asks for a turn.
-/

namespace MiddlewareUtils.SimpleRedis

open Lib Function

/-! ## Fit for use -/

def Parkable (sock : Socket) : Prop := sock.closed = false ∧ sock.watch = .off

theorem Parkable.fresh : Parkable .fresh := ⟨rfl, rfl⟩

/-- Only a context that is done closes the socket of a command. -/
def Watched (ctx : Ctx) (sock : Socket) : Prop :=
  sock.closed = true ∨ sock.watch = .started → ctx.err ≠ none

theorem Parkable.watched {sock : Socket} {ctx : Ctx} (h : Parkable sock) : Watched ctx sock := by
  rintro (hc | hw)
  · rw [h.1] at hc
    exact nomatch hc
  · rw [h.2] at hw
    exact nomatch hw

def Pc.intact (sockets : ℕ → Socket) (c : Call) : Pc → Prop
  | sweep _ reused => ∀ s ∈ reused, Parkable (sockets s)
  | io s _ _ => Watched c.ctx (sockets s)
  | stopped s _ _ => Watched c.ctx (sockets s) ∧ (sockets s).watch ≠ .armed
  | release s _ reusable => reusable = true → Parkable (sockets s)
  | _ => True

def Proc.intact (sockets : ℕ → Socket) : Proc → Prop
  | exec c pc => pc.intact sockets c
  | close _ => True

structure Harmless (sock sock' : Socket) : Prop where
  parkable : Parkable sock → Parkable sock'
  watched : ∀ ctx, Watched ctx sock → Watched ctx sock'
  armed : sock'.watch = .armed → sock.watch = .armed
  closed : sock.closed = true → sock'.closed = true

theorem Harmless.refl (sock : Socket) : Harmless sock sock := ⟨id, fun _ => id, id, id⟩

theorem Harmless.watchClose {sock : Socket} (hw : sock.watch = .started) :
    Harmless sock { sock with closed := true } where
  parkable := fun hpark => nomatch hpark.2.symm.trans hw
  watched := fun _ hwatched _ => hwatched (Or.inr hw)
  armed := id
  closed := fun _ => rfl

theorem Harmless.setSocket {sr : Pool} {s : ℕ} {sock : Socket} (h : Harmless (sr.sockets s) sock)
    (t : ℕ) : Harmless (sr.sockets t) ((sr.setSocket s sock).sockets t) := by
  by_cases hts : t = s
  · subst hts
    rw [Pool.sockets_setSocket_self]
    exact h
  · rw [Pool.sockets_setSocket_of_ne hts]
    exact .refl _

theorem Pc.intact_of_harmless {sockets sockets' : ℕ → Socket} {c : Call} {pc : Pc}
    (h : pc.intact sockets c) (hs : ∀ s ∈ pc.hands, Harmless (sockets s) (sockets' s)) :
    pc.intact sockets' c := by
  cases pc with
  | sweep stale reused =>
    intro s hmem
    exact (hs s (List.mem_append.mpr (Or.inr (Option.mem_toList.mpr hmem)))).parkable (h s hmem)
  | io s verb stage => exact (hs s (List.mem_singleton_self s)).watched c.ctx h
  | stopped s reply reusable =>
    have hsock := hs s (List.mem_singleton_self s)
    exact ⟨hsock.watched c.ctx h.1, fun harm => h.2 (hsock.armed harm)⟩
  | release s r reusable =>
    exact fun hr => (hs s (List.mem_singleton_self s)).parkable (h hr)
  | _ => trivial

theorem Proc.intact_of_harmless {sockets sockets' : ℕ → Socket} {proc : Proc}
    (h : proc.intact sockets) (hs : ∀ s ∈ proc.hands, Harmless (sockets s) (sockets' s)) :
    proc.intact sockets' := by
  cases proc with
  | exec c pc => exact Pc.intact_of_harmless h hs
  | close pc => trivial

/-! ## One step of a command -/

variable {env : Env} {sr sr' : Pool} {c c' : Call} {pc pc' : Pc} {evs : List Event} {s t : ℕ}

theorem DoMove.watched {ctx : Ctx} {args : List Bytes} {tag : Tag} {stage stage' : Stage}
    (hm : DoMove env sr ctx args tag s stage sr' stage' evs) (h : Watched ctx (sr.sockets s)) :
    Watched ctx (sr'.sockets s) := by
  cases hm with
  | armed | leftover =>
    rw [Pool.armWatch, Pool.sockets_setSocket_self]
    rintro (hc | hw)
    · exact h (Or.inl hc)
    · exact nomatch hw
  | sent | sentBlind =>
    rw [Pool.deliver, Pool.sockets_setSocket_self]
    exact h
  | arrive =>
    rw [Pool.fill, Pool.sockets_setSocket_self]
    exact h
  | replied =>
    rw [Pool.consume, Pool.sockets_setSocket_self]
    exact h
  | _ => exact h

theorem Pool.watched_stopWatch {ctx : Ctx} (h : Watched ctx (sr.sockets s)) :
    Watched ctx ((sr.stopWatch s).sockets s) ∧ ((sr.stopWatch s).sockets s).watch ≠ .armed := by
  unfold Pool.stopWatch
  split
  · rw [Pool.sockets_setSocket_self]
    refine ⟨?_, nofun⟩
    rintro (hc | hw)
    · exact h (Or.inl hc)
    · exact nomatch hw
  next hne => exact ⟨h, hne⟩

theorem Watched.parkable {ctx : Ctx} {now : ℤ} {sock : Socket} (h : Watched ctx sock)
    (hwatch : sock.watch ≠ .armed) (hstop : contextStop ctx now = none) : Parkable sock := by
  have herr : ctx.err = none := by
    unfold contextStop at hstop
    split at hstop
    · exact nomatch hstop
    next he => exact he
  refine ⟨?_, ?_⟩
  · cases hc : sock.closed with
    | false => rfl
    | true => exact absurd herr (h (Or.inl hc))
  · cases hw : sock.watch with
    | off => rfl
    | armed => exact absurd hw hwatch
    | started => exact absurd herr (h (Or.inr hw))

theorem Move.intact (hm : Move env sr c pc sr' c' pc' evs)
    (hidle : ∀ s ∈ sr.idleConns, Parkable (sr.sockets s)) (hnodup : pc.hands.Nodup)
    (h : pc.intact sr.sockets c) : pc'.intact sr'.sockets c' := by
  cases hm with
  | taken =>
    intro s hs
    have hmem : s ∈ sr.survivors env.cfg env.now := List.mem_of_getLast? hs
    exact hidle s (List.mem_of_mem_filter hmem)
  | @swept s stale reused =>
    intro t ht
    have hne : t ≠ s := by
      rintro rfl
      have hmem : t ∈ stale ++ reused.toList :=
        List.mem_append.mpr (Or.inr (Option.mem_toList.mpr ht))
      exact (List.nodup_cons.mp hnodup).1 hmem
    rw [Pool.closeConn, Pool.sockets_setSocket_of_ne hne]
    exact h t ht
  | reuse => exact (h _ rfl).watched
  | connected =>
    show Watched c.ctx (sr.openConn.sockets sr.nextSocket)
    rw [Pool.sockets_openConn_self]
    exact Parkable.fresh.watched
  | io hdo => exact hdo.watched h
  | @leave s verb reply reusable =>
    obtain ⟨hwatched, hwatch⟩ := Pool.watched_stopWatch h
    cases verb with
    | command => exact ⟨hwatched, hwatch⟩
    | auth | select =>
      cases reply with
      | error e => trivial
      | ok values => exact hwatched
  | lateStop => exact nofun
  | inTime he => exact fun _ => h.1.parkable h.2 he
  | _ => trivial

theorem Move.kept (hm : Move env sr c pc sr' c' pc' evs) (ht : t ∈ pc.hands ++ sr.idleConns) :
    t ∈ pc'.hands ++ sr'.idleConns ∨ (sr'.sockets t).closed = true := by
  cases hm with
  | taken => exact .inl ((sr.taken_perm env.cfg env.now).mem_iff.mpr ht)
  | swept =>
    rcases List.mem_cons.mp ht with rfl | ht
    · right
      rw [Pool.closeConn, Pool.sockets_setSocket_self]
    · exact .inl ht
  | hangUp | close =>
    rcases List.mem_cons.mp ht with rfl | ht
    · right
      rw [Pool.closeConn, Pool.sockets_setSocket_self]
    · exact .inl ht
  | io hdo =>
    rw [hdo.same.1]
    exact .inl ht
  | leave =>
    rw [afterDo_hands, Pool.stopWatch_same.1]
    exact .inl ht
  | @park s =>
    have hmem : t ∈ [s] ++ sr.idleConns := ht
    left
    show t ∈ sr.idleConns ++ [s]
    exact List.perm_append_comm.mem_iff.mp hmem
  | refund | freeTurn =>
    rw [(sr.sockets_freeInUseTurn env.cfg).2.1]
    exact .inl ht
  | connected => exact .inl (List.mem_append.mpr (Or.inr ht))
  | _ => exact .inl ht

theorem DoMove.closed_same {ctx : Ctx} {args : List Bytes} {tag : Tag} {stage stage' : Stage}
    (hm : DoMove env sr ctx args tag s stage sr' stage' evs) :
    (sr'.sockets s).closed = (sr.sockets s).closed := by
  cases hm with
  | armed | leftover => rw [Pool.armWatch, Pool.sockets_setSocket_self]
  | sent | sentBlind => rw [Pool.deliver, Pool.sockets_setSocket_self]
  | arrive => rw [Pool.fill, Pool.sockets_setSocket_self]
  | replied => rw [Pool.consume, Pool.sockets_setSocket_self]
  | _ => rfl

theorem Pool.closed_stopWatch : ((sr.stopWatch s).sockets s).closed = (sr.sockets s).closed := by
  unfold Pool.stopWatch
  split
  · rw [Pool.sockets_setSocket_self]
  · rfl

theorem Pool.closed_closeConn (h : (sr.sockets t).closed = true) :
    ((sr.closeConn s).sockets t).closed = true := by
  by_cases hts : t = s
  · rw [hts, Pool.closeConn, Pool.sockets_setSocket_self]
  · rw [Pool.closeConn, Pool.sockets_setSocket_of_ne hts]
    exact h

theorem Move.closed_mono (hm : Move env sr c pc sr' c' pc' evs) (hlt : t < sr.nextSocket)
    (hc : (sr.sockets t).closed = true) : (sr'.sockets t).closed = true := by
  by_cases hmem : t ∈ pc.hands
  · cases hm with
    | io hdo =>
      rw [List.mem_singleton.mp hmem] at hc ⊢
      rw [hdo.closed_same]
      exact hc
    | leave =>
      rw [List.mem_singleton.mp hmem] at hc ⊢
      rw [Pool.closed_stopWatch]
      exact hc
    | swept | hangUp | close => exact Pool.closed_closeConn hc
    | park =>
      rw [List.mem_singleton.mp hmem] at hc ⊢
      show ((sr.stamp _ env.now).sockets _).closed = true
      rw [Pool.stamp, Pool.sockets_setSocket_self]
      exact hc
    | noRoom =>
      rw [List.mem_singleton.mp hmem] at hc ⊢
      rw [Pool.stamp, Pool.sockets_setSocket_self]
      exact hc
    | connected | refund | freeTurn => exact absurd hmem List.not_mem_nil
    | _ => exact hc
  · rw [hm.frame hmem hlt]
    exact hc

theorem CloseMove.closed_mono {pc pc' : ClosePc} (hm : CloseMove sr pc sr' pc')
    (hc : (sr.sockets t).closed = true) : (sr'.sockets t).closed = true := by
  cases hm with
  | close => exact Pool.closed_closeConn hc
  | _ => exact hc

theorem Unwind.closed_mono (hm : Unwind sr pc sr' pc') (hc : (sr.sockets t).closed = true) :
    (sr'.sockets t).closed = true := by
  cases hm with
  | @command s | @handshake s =>
    by_cases hts : t = s
    · rw [hts] at hc ⊢
      rw [Pool.closed_stopWatch]
      exact hc
    · rw [Pool.sockets_stopWatch_of_ne hts]
      exact hc
  | takeIdle | dial | dialing | hangUp => exact hc

theorem Move.parked (hm : Move env sr c pc sr' c' pc' evs) (h : pc.intact sr.sockets c)
    (ht : t ∈ sr'.idleConns) : t ∈ sr.idleConns ∨ Parkable (sr'.sockets t) := by
  cases hm with
  | taken => exact .inl (List.mem_of_mem_filter (List.mem_of_mem_dropLast ht))
  | io hdo => exact .inl (hdo.same.1 ▸ ht)
  | leave => exact .inl (Pool.stopWatch_same.1 ▸ ht)
  | refund | freeTurn => exact .inl ((sr.sockets_freeInUseTurn env.cfg).2.1 ▸ ht)
  | park =>
    rcases List.mem_append.mp ht with ht | ht
    · exact .inl ht
    · right
      rw [List.mem_singleton.mp ht]
      show Parkable ((sr.stamp _ env.now).sockets _)
      rw [Pool.stamp, Pool.sockets_setSocket_self]
      exact h rfl
  | _ => exact .inl ht

theorem Move.flag_same (hm : Move env sr c pc sr' c' pc' evs) :
    sr'.closed = sr.closed ∧ (sr.closed = true → sr'.idleConns = sr.idleConns) := by
  cases hm with
  | taken _ hc | park hc =>
    refine ⟨rfl, fun ht => ?_⟩
    rw [hc] at ht
    exact nomatch ht
  | io hdo => exact ⟨hdo.same.2.2, fun _ => hdo.same.1⟩
  | leave => exact ⟨Pool.stopWatch_same.2.2, fun _ => Pool.stopWatch_same.1⟩
  | refund | freeTurn =>
    exact ⟨(sr.sockets_freeInUseTurn env.cfg).2.2.2,
      fun _ => (sr.sockets_freeInUseTurn env.cfg).2.1⟩
  | _ => exact ⟨rfl, fun _ => rfl⟩

theorem Move.trim (hm : Move env sr c pc sr' c' pc' evs)
    (h : (sr.idleConns.length : ℤ) ≤ env.cfg.maxIdleConns) :
    (sr'.idleConns.length : ℤ) ≤ env.cfg.maxIdleConns := by
  cases hm with
  | taken =>
    have hle := sr.length_survivors_le env.cfg env.now
    have hdrop : (sr.survivors env.cfg env.now).dropLast.length =
      (sr.survivors env.cfg env.now).length - 1 := List.length_dropLast
    show ((sr.survivors env.cfg env.now).dropLast.length : ℤ) ≤ env.cfg.maxIdleConns
    omega
  | park _ hlen =>
    show ((sr.idleConns ++ [_]).length : ℤ) ≤ env.cfg.maxIdleConns
    rw [List.length_append, List.length_singleton]
    omega
  | io hdo =>
    rw [hdo.same.1]
    exact h
  | leave =>
    rw [Pool.stopWatch_same.1]
    exact h
  | refund | freeTurn =>
    rw [(sr.sockets_freeInUseTurn env.cfg).2.1]
    exact h
  | _ => exact h

/-! ## Every run: what is fit for use -/

structure FitInv (w : World) : Prop where
  sockets : SocketInv w
  parked : ∀ s ∈ w.pool.idleConns, Parkable (w.pool.sockets s)
  intact : ∀ p proc, w.procs p = some proc → proc.intact w.pool.sockets

namespace FitInv

variable {w w' : World} {p : ℕ} {proc proc' : Proc}

theorem init (cfg : Config) : FitInv (World.init cfg) where
  sockets := .init cfg
  parked := fun _ h => absurd h List.not_mem_nil
  intact := by
    intro p proc h
    have hnone : (none : Option Proc) = some proc := h
    exact nomatch hnone

theorem moved (h : FitInv w) (hs : SocketInv (w.moved p sr proc' evs))
    (hp : w.procs p = some proc)
    (hframe : ∀ t, t ∉ proc.hands → t < w.pool.nextSocket → sr.sockets t = w.pool.sockets t)
    (hparked : ∀ t ∈ sr.idleConns, t ∈ w.pool.idleConns ∨ Parkable (sr.sockets t))
    (hintact : proc'.intact sr.sockets) : FitInv (w.moved p sr proc' evs) := by
  obtain ⟨hshelf, hothers⟩ := h.sockets.elsewhere hp hframe
  refine ⟨hs, fun t ht => ?_, fun q x hq => ?_⟩
  · rcases hparked t ht with hold | hpark
    · rw [show (w.moved p sr proc' evs).pool.sockets t = _ from hshelf t hold]
      exact h.parked t hold
    · exact hpark
  · rcases update_eq_some hq with ⟨_, rfl⟩ | ⟨hqp, hq⟩
    · exact hintact
    · refine Proc.intact_of_harmless (h.intact q x hq) fun t ht => ?_
      rw [show (w.moved p sr proc' evs).pool.sockets t = _ from hothers q x hqp hq t ht]
      exact .refl _

theorem changed (h : FitInv w) (hs : SocketInv w') (hprocs : w'.procs = w.procs) {sock : Socket}
    (hpool : w'.pool = w.pool.setSocket s sock) (hsock : Harmless (w.pool.sockets s) sock) :
    FitInv w' := by
  have hall : ∀ t, Harmless (w.pool.sockets t) ((w.pool.setSocket s sock).sockets t) :=
    hsock.setSocket
  refine ⟨hs, fun t ht => ?_, fun q x hx => ?_⟩
  · rw [hpool] at ht ⊢
    exact (hall t).parkable (h.parked t ht)
  · rw [hprocs] at hx
    rw [hpool]
    exact Proc.intact_of_harmless (h.intact q x hx) fun t _ => hall t

theorem spawned (h : FitInv w) (hs : SocketInv (w.spawn proc))
    (hintact : proc.intact w.pool.sockets) : FitInv (w.spawn proc) := by
  refine ⟨hs, h.parked, fun q x hq => ?_⟩
  rcases update_eq_some hq with ⟨_, rfl⟩ | ⟨_, hq⟩
  · exact hintact
  · exact h.intact q x hq

theorem run (h : FitInv w) (hs : SocketInv (w.moved p sr (.exec c' pc') evs))
    (hp : w.procs p = some (.exec c pc)) (hm : Move (w.env p) w.pool c pc sr c' pc' evs) :
    FitInv (w.moved p sr (.exec c' pc') evs) := by
  have hintact : pc.intact w.pool.sockets c := h.intact p _ hp
  have hnodup : pc.hands.Nodup := by
    have hall := h.sockets.custody.nodup p
    rw [World.hands_of hp] at hall
    exact (List.nodup_append.mp hall).1
  exact h.moved hs hp (fun t ht hlt => hm.frame ht hlt) (fun t ht => hm.parked hintact ht)
    (hm.intact h.parked hnodup hintact)

theorem ctxEnded (h : FitInv w) {e : CtxErr} (hp : w.procs p = some (.exec c pc))
    (hs : SocketInv (w.setProc p (.exec { c with ctx := { c.ctx with err := some e } } pc))) :
    FitInv (w.setProc p (.exec { c with ctx := { c.ctx with err := some e } } pc)) := by
  have hintact : pc.intact w.pool.sockets c := h.intact p _ hp
  refine ⟨hs, h.parked, fun q x hq => ?_⟩
  rcases update_eq_some hq with ⟨_, rfl⟩ | ⟨_, hq⟩
  · show pc.intact w.pool.sockets _
    cases pc with
    | io s verb stage => exact fun _ => nofun
    | stopped s reply reusable => exact ⟨fun _ => nofun, hintact.2⟩
    | _ => exact hintact
  · exact h.intact q x hq

theorem watchStarted (h : FitInv w) {verb : Verb} {stage : Stage}
    (hp : w.procs p = some (.exec c (.io s verb stage))) (he : c.ctx.err.isSome)
    (hs : SocketInv (w.setSocket s { w.pool.sockets s with watch := .started })) :
    FitInv (w.setSocket s { w.pool.sockets s with watch := .started }) := by
  have hframe : ∀ t, t ∉ [s] → t < w.pool.nextSocket →
      (w.setSocket s { w.pool.sockets s with watch := .started }).pool.sockets t =
        w.pool.sockets t := fun t ht _ =>
    Pool.sockets_setSocket_of_ne fun hts => ht (hts ▸ List.mem_singleton_self s)
  obtain ⟨hshelf, hothers⟩ := h.sockets.elsewhere hp hframe
  refine ⟨hs, fun t ht => ?_, fun q x hq => ?_⟩
  · rw [show (w.setSocket s _).pool.sockets t = _ from hshelf t ht]
    exact h.parked t ht
  · by_cases hqp : q = p
    · subst hqp
      cases hp.symm.trans hq
      exact fun _ => Option.isSome_iff_ne_none.mp he
    · refine Proc.intact_of_harmless (h.intact q x hq) fun t ht => ?_
      rw [show (w.setSocket s _).pool.sockets t = _ from hothers q x hqp hq t ht]
      exact .refl _

theorem step (h : FitInv w) {a : Action} (hstep : w.step a = some w') : FitInv w' := by
  have hs := h.sockets.step hstep
  cases World.step_cases hstep with
  | exec => exact h.spawned hs trivial
  | close => exact h.spawned hs trivial
  | run hp hm => exact h.run hs hp hm
  | runClose hp hm =>
    refine h.moved hs hp (fun t ht _ => hm.frame ht) (fun t ht => Or.inl ?_) trivial
    cases hm with
    | drain => exact absurd ht List.not_mem_nil
    | _ => exact ht
  | panic hp hm =>
    refine h.moved hs hp (fun t ht _ => hm.frame ht) (fun t ht => Or.inl ?_) ?_
    · cases hm with
      | command | handshake => exact Pool.stopWatch_same.1 ▸ ht
      | _ => exact ht
    · cases hm <;> trivial
  | tick => exact ⟨hs, h.parked, h.intact⟩
  | endCtx _ hp => exact h.ctxEnded hp hs
  | startWatch hp he => exact h.watchStarted hp he hs
  | watchClose hw => exact h.changed hs rfl rfl (.watchClose hw)
  | answer => exact h.changed hs rfl rfl ⟨id, fun _ => id, id, id⟩
  | cut => exact h.changed hs rfl rfl ⟨id, fun _ => id, id, id⟩

end FitInv

/-! ## Every run without a panic in a handshake -/

def ClosePc.past : ClosePc → Bool
  | drain | each _ => true
  | _ => false

def Action.isPanic : Action → Bool
  | panic _ => true
  | _ => false

def Pc.handshaking : Pc → Bool
  | io _ verb _ => verb ≠ .command
  | hangUp _ _ => true
  | _ => false

def World.handshaking (w : World) (p : ℕ) : Bool :=
  match w.procs p with
  | some (.exec _ pc) => pc.handshaking
  | _ => false

/-- No panic strikes `dial` while it has a socket. -/
def OutsideHandshake (w : World) : Action → Prop
  | .panic p => w.handshaking p = false
  | _ => True

instance (w : World) : (a : Action) → Decidable (OutsideHandshake w a)
  | .panic p => inferInstanceAs (Decidable (w.handshaking p = false))
  | .exec _ _ | .close | .run _ _ | .tick _ | .cancel _ | .expire _ | .startWatch _
  | .watchClose _ | .answer _ _ | .cut _ _ => isTrue trivial

theorem OutsideHandshake.of_noPanic {w : World} {a : Action} (h : a.isPanic = false) :
    OutsideHandshake w a := by
  cases a with
  | panic => cases h
  | _ => trivial

structure LeakInv (w : World) : Prop where
  sockets : SocketInv w
  parked : ∀ s ∈ w.pool.idleConns, Parkable (w.pool.sockets s)
  intact : ∀ p proc, w.procs p = some proc → proc.intact w.pool.sockets
  kept : ∀ s < w.pool.nextSocket, (w.pool.sockets s).closed = false →
    s ∈ w.pool.idleConns ∨ ∃ p, s ∈ w.hands p
  trim : (w.pool.idleConns.length : ℤ) ≤ w.cfg.maxIdleConns
  drained : w.pool.closed = true → w.pool.idleConns = [] ∨ ∃ p, w.procs p = some (.close .drain)

namespace LeakInv

variable {w w' : World} {p : ℕ} {proc proc' : Proc}

theorem fit (h : LeakInv w) : FitInv w := ⟨h.sockets, h.parked, h.intact⟩

theorem init {cfg : Config} (h : 0 ≤ cfg.maxIdleConns) : LeakInv (World.init cfg) where
  sockets := .init cfg
  parked := (FitInv.init cfg).parked
  intact := (FitInv.init cfg).intact
  kept := fun _ h => absurd h (Nat.not_lt_zero _)
  trim := h
  drained := nofun

theorem moved (h : LeakInv w) (hf : FitInv (w.moved p sr proc' evs))
    (hp : w.procs p = some proc)
    (hkept : ∀ t ∈ proc.hands ++ w.pool.idleConns,
      t ∈ proc'.hands ++ sr.idleConns ∨ (sr.sockets t).closed = true)
    (hmono : ∀ t < w.pool.nextSocket, (w.pool.sockets t).closed = true →
      (sr.sockets t).closed = true)
    (hnew : ∀ t < sr.nextSocket, t < w.pool.nextSocket ∨ t ∈ proc'.hands)
    (htrim : (sr.idleConns.length : ℤ) ≤ w.cfg.maxIdleConns)
    (hdrained : sr.closed = true → sr.idleConns = [] ∨
      (proc ≠ .close .drain ∧ ∃ q, w.procs q = some (.close .drain)) ∨
      proc' = .close .drain) :
    LeakInv (w.moved p sr proc' evs) := by
  have hhands := World.hands_of hp
  have hhands' : (w.moved p sr proc' evs).hands = update w.hands p proc'.hands :=
    SocketInv.hands_of_update rfl
  refine ⟨hf.sockets, hf.parked, hf.intact, fun t hlt hc => ?_, htrim, fun hclosed => ?_⟩
  · rcases hnew t hlt with hlt | hmem
    · have hopen : (w.pool.sockets t).closed = false := by
        refine eq_false_of_ne_true fun htrue => ?_
        rw [show (w.moved p sr proc' evs).pool.sockets t = sr.sockets t from rfl,
          hmono t hlt htrue] at hc
        exact nomatch hc
      have hplace : t ∈ proc.hands ++ w.pool.idleConns ∨ ∃ q, q ≠ p ∧ t ∈ w.hands q := by
        rcases h.kept t hlt hopen with hidle | ⟨q, hq⟩
        · exact .inl (List.mem_append.mpr (Or.inr hidle))
        · by_cases hqp : q = p
          · subst hqp
            exact .inl (List.mem_append.mpr (Or.inl (hhands ▸ hq)))
          · exact .inr ⟨q, hqp, hq⟩
      rcases hplace with hmine | ⟨q, hqp, hq⟩
      · rcases hkept t hmine with hmem | hclosed
        · rcases List.mem_append.mp hmem with hmem | hmem
          · right
            refine ⟨p, ?_⟩
            rw [hhands', update_self]
            exact hmem
          · exact .inl hmem
        · rw [show (w.moved p sr proc' evs).pool.sockets t = sr.sockets t from rfl,
            hclosed] at hc
          exact nomatch hc
      · right
        refine ⟨q, ?_⟩
        rw [hhands', update_of_ne hqp]
        exact hq
    · right
      refine ⟨p, ?_⟩
      rw [hhands', update_self]
      exact hmem
  · rcases hdrained hclosed with hnil | ⟨hne, q, hq⟩ | hdrain
    · exact .inl hnil
    · right
      refine ⟨q, ?_⟩
      have hqp : q ≠ p := by
        rintro rfl
        exact hne (Option.some.inj (hp.symm.trans hq))
      rw [World.procs_moved_of_ne hqp]
      exact hq
    · right
      refine ⟨p, ?_⟩
      rw [World.procs_moved_self, hdrain]

theorem run (h : LeakInv w) (hf : FitInv (w.moved p sr (.exec c' pc') evs))
    (hp : w.procs p = some (.exec c pc)) (hm : Move (w.env p) w.pool c pc sr c' pc' evs) :
    LeakInv (w.moved p sr (.exec c' pc') evs) := by
  refine h.moved hf hp (fun t ht => hm.kept ht) (fun t hlt hc => hm.closed_mono hlt hc)
    (fun t hlt => ?_) (hm.trim h.trim) fun hclosed => ?_
  · rcases hm.hands with ⟨_, hnext⟩ | ⟨_, hopen, hhand⟩
    · exact .inl (hnext ▸ hlt)
    · rw [hopen] at hlt
      rcases Nat.lt_succ_iff_lt_or_eq.mp hlt with hlt | heq
      · exact .inl hlt
      · right
        show t ∈ pc'.hands
        rw [hhand, heq]
        exact List.mem_singleton_self _
  · obtain ⟨hflag, hidle⟩ := hm.flag_same
    rw [hflag] at hclosed
    rcases h.drained hclosed with hnil | hdrain
    · exact .inl ((hidle hclosed).trans hnil)
    · exact .inr (Or.inl ⟨nofun, hdrain⟩)

theorem runClose (h : LeakInv w) {pc pc' : ClosePc} (hf : FitInv (w.moved p sr (.close pc') []))
    (hp : w.procs p = some (.close pc)) (hm : CloseMove w.pool pc sr pc') :
    LeakInv (w.moved p sr (.close pc') []) := by
  have hnew : ∀ t < sr.nextSocket, t < w.pool.nextSocket ∨ t ∈ (Proc.close pc').hands :=
    fun t hlt => Or.inl (hm.hands.2 ▸ hlt)
  refine h.moved hf hp (fun t ht => ?_) (fun t _ hc => hm.closed_mono hc) hnew ?_
    fun hclosed => ?_
  · cases hm with
    | drain =>
      left
      rw [List.append_nil]
      exact ht
    | close =>
      rcases List.mem_cons.mp ht with rfl | ht
      · right
        rw [Pool.closeConn, Pool.sockets_setSocket_self]
      · exact .inl ht
    | _ => exact .inl ht
  · have hle := hm.pool_same.2.2
    have htrim := h.trim
    omega
  · cases hm with
    | flag => exact .inr (Or.inr rfl)
    | drain => exact .inl rfl
    | again | close | finish =>
      rcases h.drained hclosed with hnil | hdrain
      · exact .inl hnil
      · exact .inr (Or.inl ⟨nofun, hdrain⟩)

theorem touched (h : LeakInv w) {c' : Call} (hf : FitInv (w.moved p sr (.exec c' pc') []))
    (hp : w.procs p = some (.exec c pc)) (hhands : pc'.hands = pc.hands)
    (hidle : sr.idleConns = w.pool.idleConns) (hnext : sr.nextSocket = w.pool.nextSocket)
    (hclosed : sr.closed = w.pool.closed)
    (hmono : ∀ t < w.pool.nextSocket, (w.pool.sockets t).closed = true →
      (sr.sockets t).closed = true) : LeakInv (w.moved p sr (.exec c' pc') []) := by
  refine h.moved hf hp (fun t ht => Or.inl ?_) hmono (fun t ht => Or.inl (hnext ▸ ht))
    (hidle ▸ h.trim) fun hc => ?_
  · rw [show (Proc.exec c' pc').hands = _ from hhands, hidle]
    exact ht
  · rw [hclosed] at hc
    rw [hidle]
    rcases h.drained hc with hnil | hdrain
    · exact .inl hnil
    · exact .inr (Or.inl ⟨nofun, hdrain⟩)

theorem changed (h : LeakInv w) (hf : FitInv w') (hprocs : w'.procs = w.procs)
    (hcfg : w'.cfg = w.cfg) {sock : Socket} (hpool : w'.pool = w.pool.setSocket s sock)
    (hclosed : (w.pool.sockets s).closed = true → sock.closed = true) : LeakInv w' := by
  refine ⟨hf.sockets, hf.parked, hf.intact, fun t hlt hc => ?_, ?_, fun hc => ?_⟩
  · have hopen : (w.pool.sockets t).closed = false := by
      refine eq_false_of_ne_true fun htrue => ?_
      rw [hpool] at hc
      by_cases hts : t = s
      · subst hts
        rw [Pool.sockets_setSocket_self, hclosed htrue] at hc
        exact nomatch hc
      · rw [Pool.sockets_setSocket_of_ne hts, htrue] at hc
        exact nomatch hc
    rw [hpool] at hlt
    unfold World.hands
    rw [hprocs, hpool]
    exact h.kept t hlt hopen
  · rw [hpool, hcfg]
    exact h.trim
  · rw [hpool] at hc
    rw [hprocs, hpool]
    exact h.drained hc

theorem spawned (h : LeakInv w) (hf : FitInv (w.spawn proc)) (hnil : proc.hands = []) :
    LeakInv (w.spawn proc) := by
  refine ⟨hf.sockets, hf.parked, hf.intact, ?_, h.trim, fun hc => ?_⟩
  · rw [h.sockets.hands_spawn hnil]
    exact h.kept
  · rcases h.drained hc with hidle | ⟨q, hq⟩
    · exact .inl hidle
    · right
      refine ⟨q, ?_⟩
      have hlt := h.sockets.known.lt_next hq
      exact (update_of_ne hlt.ne ..).trans hq

theorem place (h : LeakInv w) (hlt : s < w.pool.nextSocket)
    (hopen : (w.pool.sockets s).closed = false) :
    (w.pool.idleConns.count s = 1 ∧ ∀ p, s ∉ w.hands p) ∨
      (s ∉ w.pool.idleConns ∧ ∃ p, s ∈ w.hands p ∧ ∀ q, s ∈ w.hands q → q = p) := by
  have hcustody := h.sockets.custody
  rcases h.kept s hlt hopen with hidle | ⟨p, hp⟩
  · left
    refine ⟨List.count_eq_one_of_mem (hcustody.shelf_nodup 0) hidle, fun p hp => ?_⟩
    exact hcustody.not_mem_shelf hp hidle
  · right
    exact ⟨hcustody.not_mem_shelf hp, p, hp, fun q hq => hcustody.apart q p s hq hp⟩

theorem panicked (h : LeakInv w) (hf : FitInv (w.moved p sr (.exec c pc') []))
    (hp : w.procs p = some (.exec c pc)) (hm : Unwind w.pool pc sr pc')
    (hout : w.handshaking p = false) : LeakInv (w.moved p sr (.exec c pc') []) := by
  simp only [World.handshaking, hp] at hout
  have hsame : pc'.hands = pc.hands ∧ sr.idleConns = w.pool.idleConns ∧
      sr.nextSocket = w.pool.nextSocket ∧ sr.closed = w.pool.closed := by
    cases hm with
    | takeIdle | dial | dialing => exact ⟨rfl, rfl, rfl, rfl⟩
    | command =>
      obtain ⟨hidle, hnext, hclosed⟩ := @Pool.stopWatch_same w.pool _
      exact ⟨rfl, hidle, hnext, hclosed⟩
    | handshake hv => exact absurd (of_decide_eq_false hout) (not_not_intro hv)
    | hangUp => cases hout
  obtain ⟨hhands, hidle, hnext, hclosed⟩ := hsame
  exact h.touched hf hp hhands hidle hnext hclosed fun t _ hc => hm.closed_mono hc

theorem step (h : LeakInv w) {a : Action} (ha : OutsideHandshake w a)
    (hstep : w.step a = some w') : LeakInv w' := by
  have hf := h.fit.step hstep
  cases World.step_cases hstep with
  | exec => exact h.spawned hf rfl
  | close => exact h.spawned hf rfl
  | run hp hm => exact h.run hf hp hm
  | runClose hp hm => exact h.runClose hf hp hm
  | panic hp hm => exact h.panicked hf hp hm ha
  | tick => exact ⟨hf.sockets, hf.parked, hf.intact, h.kept, h.trim, h.drained⟩
  | endCtx _ hp =>
    rw [← World.moved_nil] at hf ⊢
    exact h.touched hf hp rfl rfl rfl rfl fun _ _ => id
  | startWatch | answer | cut => exact h.changed hf rfl rfl rfl id
  | watchClose => exact h.changed hf rfl rfl rfl fun _ => rfl

end LeakInv

theorem World.closed_mono {w w' : World} {a : Action} (hstep : w.step a = some w')
    (hlt : t < w.pool.nextSocket) (hc : (w.pool.sockets t).closed = true) :
    (w'.pool.sockets t).closed = true := by
  have hset : ∀ {s : ℕ} {sock : Socket}, ((w.pool.sockets s).closed = true → sock.closed = true) →
      ((w.pool.setSocket s sock).sockets t).closed = true := by
    intro s sock hsock
    by_cases hts : t = s
    · subst hts
      rw [Pool.sockets_setSocket_self]
      exact hsock hc
    · rw [Pool.sockets_setSocket_of_ne hts]
      exact hc
  cases World.step_cases hstep with
  | run _ hm => exact hm.closed_mono hlt hc
  | runClose _ hm => exact hm.closed_mono hc
  | panic _ hm => exact hm.closed_mono hc
  | watchClose => exact Pool.closed_closeConn hc
  | startWatch | answer | cut => exact hset id
  | exec | close | tick | endCtx => exact hc

theorem World.nextSocket_mono {w w' : World} {a : Action} (hstep : w.step a = some w') :
    w.pool.nextSocket ≤ w'.pool.nextSocket := by
  cases World.step_cases hstep with
  | run _ hm =>
    rcases hm.hands with ⟨_, hnext⟩ | ⟨_, hopen, _⟩
    · exact hnext.ge
    · rw [show (World.moved ..).pool = w.pool.openConn from hopen]
      exact Nat.le_succ _
  | runClose _ hm => exact hm.hands.2.ge
  | panic _ hm => exact hm.hands.2.ge
  | _ => exact le_refl _

/-! ## After `Close` -/

/-- The flag is set, and the call that set it has returned. -/
def World.closeReturned (w : World) : Prop :=
  w.pool.closed = true ∧ ∀ p pc, w.procs p = some (.close pc) → pc.past = false

theorem CloseMove.past_of_closed {pc pc' : ClosePc} (hm : CloseMove sr pc sr' pc')
    (hc : sr.closed = true) (hpast : pc.past = false) : sr'.closed = true ∧ pc'.past = false := by
  cases hm with
  | again => exact ⟨hc, rfl⟩
  | flag hopen =>
    rw [hc] at hopen
    exact nomatch hopen
  | drain | close | finish => exact nomatch hpast

theorem Unwind.flag_same (hm : Unwind sr pc sr' pc') : sr'.closed = sr.closed := by
  cases hm with
  | command | handshake => exact Pool.stopWatch_same.2.2
  | _ => rfl

section closed

variable {w w' : World} {p : ℕ} {proc : Proc}

theorem World.closed_step {a : Action} (hc : w.pool.closed = true) (hstep : w.step a = some w') :
    w'.pool.closed = true := by
  cases World.step_cases hstep with
  | run _ hm => exact hm.flag_same.1.trans hc
  | runClose _ hm =>
    cases hm with
    | flag => rfl
    | _ => exact hc
  | panic _ hm => exact hm.flag_same.trans hc
  | _ => exact hc

theorem World.closeReturned.step {a : Action} (h : w.closeReturned)
    (hstep : w.step a = some w') : w'.closeReturned := by
  refine ⟨World.closed_step h.1 hstep, fun q pc hq => ?_⟩
  have hother : ∀ {p : ℕ} {proc : Proc} {procs : ℕ → Option Proc},
      procs = update w.procs p (some proc) → (∀ pc, proc = .close pc → pc.past = false) →
      procs q = some (.close pc) → pc.past = false := by
    intro p proc procs hprocs hproc hq
    rw [hprocs] at hq
    by_cases hqp : q = p
    · subst hqp
      rw [update_self] at hq
      exact hproc pc (Option.some.inj hq)
    · rw [update_of_ne hqp] at hq
      exact h.2 q pc hq
  cases World.step_cases hstep with
  | exec => exact hother rfl (fun _ heq => by cases heq) hq
  | close =>
    refine hother rfl (fun pc heq => ?_) hq
    cases heq
    rfl
  | run => exact hother rfl (fun _ heq => by cases heq) hq
  | runClose hp hm =>
    refine hother rfl (fun pc heq => ?_) hq
    cases heq
    exact (hm.past_of_closed h.1 (h.2 _ _ hp)).2
  | panic => exact hother rfl (fun _ heq => by cases heq) hq
  | endCtx => exact hother rfl (fun _ heq => by cases heq) hq
  | tick | startWatch | watchClose | answer | cut => exact h.2 q pc hq

def Pc.barred : Pc → Bool
  | start | attempt | backoff | borrow | borrowFailed _ | done => true
  | _ => false

theorem Move.barred (hm : Move env sr c pc sr' c' pc' evs) (hc : sr.closed = true)
    (h : pc.barred = true) : pc'.barred = true ∧ sr'.nextSocket = sr.nextSocket := by
  cases hm with
  | borrow hopen =>
    rw [hc] at hopen
    exact nomatch hopen
  | deadOnArrival | bind | exhausted | neverTried | attemptStop | retry | first | backoffStop
  | backoffOver | backoffDone | borrowClosed | borrowGaveUp | borrowAgain | borrowPanicked =>
    exact ⟨rfl, rfl⟩
  | _ => exact nomatch h

def World.barred (w : World) (p : ℕ) : Prop :=
  w.Known ∧ w.pool.closed = true ∧ ∃ c pc, w.procs p = some (.exec c pc) ∧ pc.barred = true

theorem World.barred.step {a : Action} (h : w.barred p) (hstep : w.step a = some w') :
    w'.barred p := by
  obtain ⟨hk, hc, c, pc, hp, hbar⟩ := h
  refine ⟨hk.step hstep, World.closed_step hc hstep, ?_⟩
  -- A step of another process leaves this one where it is.
  have hother : ∀ {q : ℕ} {proc : Proc}, q ≠ p →
      ∃ c pc, update w.procs q (some proc) p = some (.exec c pc) ∧ pc.barred = true := by
    intro q proc hq
    refine ⟨c, pc, ?_, hbar⟩
    rw [update_of_ne hq.symm]
    exact hp
  cases World.step_cases hstep with
  | exec | close => exact hother (hk.lt_next hp).ne'
  | @run q _ _ _ _ _ _ _ hq hm =>
    by_cases hqp : q = p
    · subst hqp
      cases hp.symm.trans hq
      exact ⟨_, _, update_self .., (hm.barred hc hbar).1⟩
    · exact hother hqp
  | @runClose q _ _ _ _ hq =>
    refine hother ?_
    rintro rfl
    exact nomatch hp.symm.trans hq
  | @panic q _ _ _ _ hq hm =>
    by_cases hqp : q = p
    · subst hqp
      cases hp.symm.trans hq
      cases hm <;> exact nomatch hbar
    · exact hother hqp
  | @endCtx _ q _ _ _ _ hq =>
    by_cases hqp : q = p
    · subst hqp
      cases hp.symm.trans hq
      exact ⟨_, _, update_self .., hbar⟩
    · exact hother hqp
  | tick | startWatch | watchClose | answer | cut => exact ⟨c, pc, hp, hbar⟩

end closed

theorem World.barred.opens_nothing {w w' : World} {p : ℕ} {inp : Input} (h : w.barred p)
    (hstep : w.step (.run p inp) = some w') : w'.pool.nextSocket = w.pool.nextSocket := by
  obtain ⟨_, hc, c, pc, hp, hbar⟩ := h
  cases World.step_cases hstep with
  | run hq hm =>
    cases hp.symm.trans hq
    exact (hm.barred hc hbar).2
  | runClose _ hm => exact hm.hands.2
  | endCtx ha => exact nomatch ha

namespace LeakInv

variable {w : World}

theorem empty (h : LeakInv w) (hret : w.closeReturned) : w.pool.idleConns = [] := by
  rcases h.drained hret.1 with hnil | ⟨p, hp⟩
  · exact hnil
  · exact nomatch hret.2 p _ hp

theorem allClosed (h : LeakInv w) (hret : w.closeReturned) (hidle : ∀ p, ¬ w.inFlight p)
    (hlt : s < w.pool.nextSocket) : (w.pool.sockets s).closed = true := by
  refine Bool.eq_true_of_not_eq_false fun hopen => ?_
  rcases h.kept s hlt hopen with hmem | ⟨p, hp⟩
  · rw [h.empty hret] at hmem
    exact absurd hmem List.not_mem_nil
  · unfold World.hands at hp
    cases hproc : w.procs p with
    | none =>
      rw [hproc] at hp
      exact absurd hp List.not_mem_nil
    | some proc =>
      rw [hproc] at hp
      cases proc with
      | exec c pc =>
        refine hidle p ⟨c, pc, hproc, ?_⟩
        rintro rfl
        exact absurd hp List.not_mem_nil
      | close pc =>
        have hpast := hret.2 p pc hproc
        cases pc with
        | drain | each => exact nomatch hpast
        | flag | done => exact absurd hp List.not_mem_nil

end LeakInv

/-! ## The result -/

theorem new_trim {cfg : Config} {w : World} (h : new cfg = .ok w) :
    0 ≤ w.cfg.maxIdleConns ∧ w.cfg.maxIdleConns ≤ w.cfg.poolSize := by
  unfold new Config.applyDefaults at h
  dsimp only at h
  split at h
  · exact nomatch h
  next hok =>
    injection h with h
    subst h
    have hpool : 0 < orDefault cfg.poolSize defaultPoolSize := by
      unfold orDefault
      split
      · decide
      · omega
    show 0 ≤ (if cfg.maxIdleConns ≤ 0 then min defaultMaxIdleConns
        (orDefault cfg.poolSize defaultPoolSize) else cfg.maxIdleConns) ∧
      (if cfg.maxIdleConns ≤ 0 then min defaultMaxIdleConns
        (orDefault cfg.poolSize defaultPoolSize) else cfg.maxIdleConns) ≤
          orDefault cfg.poolSize defaultPoolSize
    unfold defaultMaxIdleConns
    split
    · omega
    · omega

/-- Where the sockets of a client are: each open one on the unused list, once, or
with one process; the list open, trimmed, and empty after `Close`. -/
theorem sockets_accounted {cfg : Config} {w₀ w : World} {acts : List Action}
    (hnew : new cfg = .ok w₀) (hpanic : ∀ a ∈ acts, a.isPanic = false)
    (hrun : run World.step w₀ acts = some w) :
    (∀ s < w.pool.nextSocket, (w.pool.sockets s).closed = false →
      (w.pool.idleConns.count s = 1 ∧ ∀ p, s ∉ w.hands p) ∨
      (s ∉ w.pool.idleConns ∧ ∃ p, s ∈ w.hands p ∧ ∀ q, s ∈ w.hands q → q = p)) ∧
    (∀ s ∈ w.pool.idleConns, (w.pool.sockets s).closed = false) ∧
    (w.pool.idleConns.length : ℤ) ≤ w₀.cfg.maxIdleConns ∧
    w₀.cfg.maxIdleConns ≤ w₀.cfg.poolSize ∧
    (w.closeReturned → ∀ acts' w', (∀ a ∈ acts', a.isPanic = false) →
      run World.step w acts' = some w' → w'.pool.idleConns = [] ∧
      ((∀ p, ¬ w'.inFlight p) → ∀ s < w'.pool.nextSocket, (w'.pool.sockets s).closed = true)) ∧
    (w.pool.closed = true → ∀ args ctx acts' w' inp w'',
      run World.step w (.exec args ctx :: acts') = some w' →
      w'.step (.run w.next inp) = some w'' → w''.pool.nextSocket = w'.pool.nextSocket) := by
  obtain ⟨hinit, _⟩ := new_ok hnew
  obtain ⟨hnonneg, hle⟩ := new_trim hnew
  have hinv : LeakInv w := by
    rw [hinit] at hrun
    exact run_inv_along (fun _ _ _ h ha hs => h.step (.of_noPanic ha) hs)
      (along_of_forall hpanic _) (.init hnonneg) hrun
  refine ⟨fun s hlt hopen => hinv.place hlt hopen, fun s hs => (hinv.parked s hs).1, ?_, hle,
    fun hret acts' w' hpanic' hrun' => ?_, fun hc args ctx acts' w' inp w'' hrun' hstep => ?_⟩
  · have htrim := hinv.trim
    rw [World.run_cfg hrun] at htrim
    exact htrim
  · have hinv' : LeakInv w' := run_inv_along (fun _ _ _ h ha hs => h.step (.of_noPanic ha) hs)
      (along_of_forall hpanic' _) hinv hrun'
    have hret' : w'.closeReturned := run_inv (fun _ _ _ h hs => h.step hs) hret hrun'
    exact ⟨hinv'.empty hret', fun hidle s hlt => hinv'.allClosed hret' hidle hlt⟩
  · obtain ⟨w₁, hexec, hrun'⟩ := run_cons hrun'
    have hbar : w₁.barred w.next := by
      cases hexec
      exact ⟨hinv.sockets.known.spawned, hc, _, _, update_self .., rfl⟩
    exact (run_inv (fun _ _ _ h hs => World.barred.step h hs) hbar hrun').opens_nothing hstep

/-- A command parks its socket and `Close` drains it. -/
def parkAndClose : List Action := dialAndPark 0 0 ++ .close :: quiet 1 2

theorem sockets_accounted_drained : ∃ w₀ w : World, new oneSocket = .ok w₀ ∧
    run World.step w₀ parkAndClose = some w ∧ (w.pool.sockets 0).closed = false ∧
    ((w.pool.idleConns.count 0 = 1 ∧ ∀ p, 0 ∉ w.hands p) ∨
      (0 ∉ w.pool.idleConns ∧ ∃ p, 0 ∈ w.hands p ∧ ∀ q, 0 ∈ w.hands q → q = p)) :=
  have h := @sockets_accounted oneSocket _ _ parkAndClose rfl (by decide) rfl
  ⟨_, _, rfl, rfl, rfl, h.1 0 (by decide +kernel) rfl⟩

end MiddlewareUtils.SimpleRedis
