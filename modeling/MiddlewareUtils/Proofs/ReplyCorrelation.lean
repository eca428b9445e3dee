import MiddlewareUtils.Proofs.RespFrames
import MiddlewareUtils.Proofs.SocketOwners

/-!
# Every command gets its own reply

A socket is quiet when nothing is in the reader, nothing is on the way and
no command on it waits for an answer. The invariant says when a socket has
to be quiet: on the unused list, in the hands of a command that has not
written yet, and after an exchange that may be parked or followed by another
one. Between the write and the reply the socket carries exactly one
unanswered command, the one of the command that holds it, and then a prefix
of the encoding of its answer.

So the decoder only ever sees a prefix of one reply. By `Frames.whole`
it accepts nothing but the whole of it, which leaves the socket quiet again
and returns the value of that reply; every other outcome, an I/O error, a
refused reply, a fired context, a failed write, leaves a socket that is not
reusable. Nobody else can disturb this, because nobody else has the socket
(`SocketInv`), and the peer sends on a socket only what answers a command
it received there.
-/

namespace MiddlewareUtils.SimpleRedis

open Lib Function

/-! ## What a socket carries -/

def Quiet (sock : Socket) : Prop := sock.buffer = [] ∧ sock.wire = [] ∧ sock.owed = []

theorem Quiet.fresh : Quiet .fresh := ⟨rfl, rfl, rfl⟩

def Awaiting (log : List Event) (tag : Tag) (sock : Socket) : Prop :=
  (sock.owed = [tag] ∧ sock.buffer = [] ∧ sock.wire = []) ∨
    (sock.owed = [] ∧ ∃ r : Reply, r.wellFormed = true ∧ .answered tag r ∈ log ∧
      sock.buffer ++ sock.wire <+: r.encode)

def Answered (log : List Event) (tag : Tag) (values : List (Option Bytes)) : Prop :=
  ∃ r : Reply, .answered tag r ∈ log ∧ r.decoded = some values

def Own (log : List Event) (p : ℕ) (reply : Decoded) : Prop :=
  ∀ values, reply = .ok values → ∃ n, Answered log ⟨p, n, .command⟩ values

def Ran.own (log : List Event) (p : ℕ) : Ran → Prop
  | returned reply => Own log p reply
  | panicked => True

def Stage.ready (log : List Event) (tag : Tag) (sock : Socket) : Stage → Prop
  | enter | budget | arm | write => Quiet sock
  | read => Awaiting log tag sock
  | leave reply reusable => (reusable = true → Quiet sock) ∧
      ∀ values, reply = .ok values → Quiet sock ∧ Answered log tag values

def Pc.ready (log : List Event) (sockets : ℕ → Socket) (p : ℕ) (c : Call) : Pc → Prop
  | sweep _ reused => ∀ s ∈ reused, Quiet (sockets s)
  | io s verb stage => stage.ready log ⟨p, c.attempt, verb⟩ (sockets s)
  | stopped s reply reusable => (reusable = true → Quiet (sockets s)) ∧ Own log p reply
  | release s r reusable => (reusable = true → Quiet (sockets s)) ∧ r.own log p
  | closing _ r | freeTurn r | ran r => r.own log p
  | _ => True

def Proc.ready (log : List Event) (sockets : ℕ → Socket) (p : ℕ) : Proc → Prop
  | exec c pc => pc.ready log sockets p c
  | close _ => True

section mono

variable {log log' : List Event} {tag : Tag} {sock : Socket} {p : ℕ}

theorem Awaiting.mono (h : Awaiting log tag sock) (hlog : log ⊆ log') :
    Awaiting log' tag sock := by
  rcases h with h | ⟨howed, r, hwf, hmem, hpre⟩
  · exact .inl h
  · exact .inr ⟨howed, r, hwf, hlog hmem, hpre⟩

theorem Answered.mono {values : List (Option Bytes)} (h : Answered log tag values)
    (hlog : log ⊆ log') : Answered log' tag values := by
  obtain ⟨r, hmem, hdec⟩ := h
  exact ⟨r, hlog hmem, hdec⟩

theorem Own.mono {reply : Decoded} (h : Own log p reply) (hlog : log ⊆ log') :
    Own log' p reply := by
  intro values hv
  obtain ⟨n, hn⟩ := h values hv
  exact ⟨n, hn.mono hlog⟩

theorem Own.error {e : Err} : Own log p (.error e) := nofun

theorem Ran.own_mono {ran : Ran} (h : ran.own log p) (hlog : log ⊆ log') : ran.own log' p := by
  cases ran with
  | returned reply => exact Own.mono h hlog
  | panicked => trivial

theorem Stage.ready_mono {stage : Stage} (h : stage.ready log tag sock) (hlog : log ⊆ log') :
    stage.ready log' tag sock := by
  cases stage with
  | read => exact Awaiting.mono h hlog
  | leave reply reusable =>
    refine ⟨h.1, fun values hv => ?_⟩
    obtain ⟨hq, ha⟩ := h.2 values hv
    exact ⟨hq, ha.mono hlog⟩
  | _ => exact h

theorem Pc.ready_of_sockets {sockets sockets' : ℕ → Socket} {c : Call} {pc : Pc}
    (h : pc.ready log sockets p c) (hlog : log ⊆ log')
    (hq : ∀ s ∈ pc.hands, Quiet (sockets s) → Quiet (sockets' s))
    (haw : ∀ s ∈ pc.hands, ∀ tag, Awaiting log tag (sockets s) → Awaiting log' tag (sockets' s)) :
    pc.ready log' sockets' p c := by
  cases pc with
  | sweep stale reused =>
    intro s hs
    exact hq s (List.mem_append.mpr (Or.inr (Option.mem_toList.mpr hs))) (h s hs)
  | io s verb stage =>
    have hmem := List.mem_singleton_self s
    cases stage with
    | read => exact haw s hmem _ h
    | leave reply reusable =>
      refine ⟨fun hr => hq s hmem (h.1 hr), fun values hv => ?_⟩
      obtain ⟨hquiet, ha⟩ := h.2 values hv
      exact ⟨hq s hmem hquiet, ha.mono hlog⟩
    | _ => exact hq s hmem h
  | stopped s reply reusable =>
    exact ⟨fun hr => hq s (List.mem_singleton_self s) (h.1 hr), h.2.mono hlog⟩
  | release s r reusable =>
    exact ⟨fun hr => hq s (List.mem_singleton_self s) (h.1 hr), Ran.own_mono h.2 hlog⟩
  | closing s r => exact Ran.own_mono h hlog
  | freeTurn r => exact Ran.own_mono h hlog
  | ran r => exact Ran.own_mono h hlog
  | _ => exact h

theorem Pc.ready_mono {sockets : ℕ → Socket} {c : Call} {pc : Pc}
    (h : pc.ready log sockets p c) (hlog : log ⊆ log') : pc.ready log' sockets p c :=
  Pc.ready_of_sockets h hlog (fun _ _ => id) fun _ _ _ ha => ha.mono hlog

theorem Proc.ready_of_sockets {sockets sockets' : ℕ → Socket} {proc : Proc}
    (h : proc.ready log sockets p) (hlog : log ⊆ log')
    (hq : ∀ s ∈ proc.hands, Quiet (sockets s) → Quiet (sockets' s))
    (haw : ∀ s ∈ proc.hands, ∀ tag, Awaiting log tag (sockets s) →
      Awaiting log' tag (sockets' s)) : proc.ready log' sockets' p := by
  cases proc with
  | exec c pc => exact Pc.ready_of_sockets h hlog hq haw
  | close pc => trivial

end mono

/-! ## One exchange -/

theorem Stage.ready_failed {log : List Event} {tag : Tag} {sock : Socket} {e : Err} :
    (Stage.leave (.error e) false).ready log tag sock := ⟨nofun, nofun⟩

theorem afterRead_failed {log : List Event} {tag : Tag} {sock : Socket} {ctx : Ctx} {now : ℤ}
    {e : Err} : (afterRead ctx now (.error e) false).ready log tag sock := by
  unfold afterRead
  split <;> exact Stage.ready_failed

theorem Awaiting.replied {log : List Event} {tag : Tag} {sock : Socket} {reply : Decoded}
    {rest : Bytes} (h : Awaiting log tag sock) (hdone : readReply sock.buffer = .done reply rest) :
    Quiet { sock with buffer := rest } ∧ rest = [] ∧
      ∀ values, reply = .ok values → Answered log tag values := by
  rcases h with ⟨_, hbuf, _⟩ | ⟨howed, r, hwf, hmem, hpre⟩
  · rw [hbuf] at hdone
    exact nomatch hdone
  · have hbuffer : sock.buffer <+: r.encode := (List.prefix_append _ _).trans hpre
    obtain ⟨hall, hrest, hans⟩ := (readReply_frames hwf).whole readReply_stable hbuffer hdone
    have hwire : sock.wire = [] := by
      have hlen := hpre.length_le
      rw [← hall, List.length_append] at hlen
      exact List.length_eq_zero_iff.mp (by omega)
    exact ⟨⟨hrest, hwire, howed⟩, hrest, fun values hv => ⟨r, hmem, hans values hv⟩⟩

theorem Pool.prefix_fill {sock : Socket} (n : ℕ) :
    sock.buffer ++ sock.wire.take n ++ sock.wire.drop n = sock.buffer ++ sock.wire := by
  rw [List.append_assoc, List.take_append_drop]

variable {env : Env} {sr sr' : Pool} {c c' : Call} {pc pc' : Pc} {evs log : List Event} {s : ℕ}

theorem DoMove.ready {ctx : Ctx} {args : List Bytes} {tag : Tag} {stage stage' : Stage}
    (hm : DoMove env sr ctx args tag s stage sr' stage' evs)
    (h : stage.ready log tag (sr.sockets s)) :
    stage'.ready (log ++ evs) tag (sr'.sockets s) := by
  refine Stage.ready_mono ?_ (List.subset_append_left log evs)
  cases hm with
  | go | afford => exact h
  | armed =>
    rw [Pool.armWatch, Pool.sockets_setSocket_self]
    exact h
  | sent =>
    rw [Pool.deliver, Pool.sockets_setSocket_self]
    refine .inl ⟨?_, h.1, h.2.1⟩
    rw [h.2.2]
    rfl
  | arrive =>
    rw [Pool.fill, Pool.sockets_setSocket_self]
    rcases h with ⟨howed, hbuf, hwire⟩ | ⟨howed, r, hwf, hmem, hpre⟩
    · refine .inl ⟨howed, ?_, ?_⟩
      · rw [hbuf, hwire, List.take_nil]
        rfl
      · rw [hwire, List.drop_nil]
    · refine .inr ⟨howed, r, hwf, hmem, ?_⟩
      rw [Pool.prefix_fill]
      exact hpre
  | refused => exact afterRead_failed
  | @replied reply rest hdone =>
    rw [Pool.consume, Pool.sockets_setSocket_self]
    obtain ⟨hquiet, _, hans⟩ := Awaiting.replied h hdone
    unfold afterRead
    split
    · exact Stage.ready_failed
    · exact ⟨fun _ => hquiet, fun values hv => ⟨hquiet, hans values hv⟩⟩
  | _ => exact Stage.ready_failed

theorem Pool.quiet_closeConn {t : ℕ} (h : Quiet (sr.sockets t)) :
    Quiet ((sr.closeConn s).sockets t) := by
  by_cases ht : t = s
  · subst ht
    rw [Pool.closeConn, Pool.sockets_setSocket_self]
    exact h
  · rw [Pool.closeConn, Pool.sockets_setSocket_of_ne ht]
    exact h

theorem Pool.quiet_stopWatch (h : Quiet (sr.sockets s)) : Quiet ((sr.stopWatch s).sockets s) := by
  unfold Pool.stopWatch
  split
  · rw [Pool.sockets_setSocket_self]
    exact h
  · exact h

theorem afterDo_ready {p : ℕ} {verb : Verb} {reply : Decoded} {reusable : Bool}
    (h : (Stage.leave reply reusable).ready log ⟨p, c.attempt, verb⟩ (sr.sockets s)) :
    (afterDo env.cfg s reply reusable verb).ready log (sr.stopWatch s).sockets p c := by
  cases verb with
  | command =>
    refine ⟨fun hr => Pool.quiet_stopWatch (h.1 hr), fun values hv => ?_⟩
    exact ⟨c.attempt, (h.2 values hv).2⟩
  | auth | select =>
    cases reply with
    | error e => trivial
    | ok values => exact Pool.quiet_stopWatch (h.2 values rfl).1

/-! ## One step of a command -/

theorem Move.ready (hm : Move env sr c pc sr' c' pc' evs)
    (hquiet : ∀ s ∈ sr.idleConns, Quiet (sr.sockets s)) (h : pc.ready log sr.sockets env.p c) :
    pc'.ready (log ++ evs) sr'.sockets env.p c' := by
  have hgrow := List.subset_append_left log evs
  cases hm with
  | taken =>
    intro s hs
    have hmem : s ∈ sr.survivors env.cfg env.now := List.mem_of_getLast? hs
    exact hquiet s (List.mem_of_mem_filter hmem)
  | reuse => exact h _ rfl
  | connected =>
    show Quiet (sr.openConn.sockets sr.nextSocket)
    rw [Pool.sockets_openConn_self]
    exact Quiet.fresh
  | io hdo => exact hdo.ready h
  | leave => exact Pc.ready_mono (afterDo_ready h) hgrow
  | lateStop => exact ⟨nofun, Own.error⟩
  | inTime => exact ⟨h.1, Own.mono h.2 hgrow⟩
  | park | noRoom | dirty => exact Ran.own_mono h.2 hgrow
  | close => exact Ran.own_mono h hgrow
  | freeTurn => exact Ran.own_mono h hgrow
  | swept => exact fun t ht => Pool.quiet_closeConn (h t ht)
  | _ => trivial

theorem Move.shelf (hm : Move env sr c pc sr' c' pc' evs) (h : pc.ready log sr.sockets env.p c)
    {t : ℕ} (ht : t ∈ sr'.idleConns) : t ∈ sr.idleConns ∨ Quiet (sr'.sockets t) := by
  cases hm with
  | taken => exact .inl (List.mem_of_mem_filter (List.mem_of_mem_dropLast ht))
  | io hdo => exact .inl (hdo.same.1 ▸ ht)
  | leave => exact .inl (Pool.stopWatch_same.1 ▸ ht)
  | refund | freeTurn => exact .inl ((sr.sockets_freeInUseTurn env.cfg).2.1 ▸ ht)
  | park =>
    rcases List.mem_append.mp ht with ht | ht
    · exact .inl ht
    · right
      rw [List.mem_singleton.mp ht]
      show Quiet ((sr.stamp _ env.now).sockets _)
      rw [Pool.stamp, Pool.sockets_setSocket_self]
      exact h.1 rfl
  | _ => exact .inl ht

theorem Move.returned (hm : Move env sr c pc sr' c' pc' evs) {q : ℕ}
    {values : List (Option Bytes)} (h : .returned q (.ok values) ∈ evs) :
    q = env.p ∧ pc = .ran (.returned (.ok values)) := by
  have hfails : ∀ {e : Err}, .returned q (.ok values) ∉ fails env.p c e := by
    intro e hmem
    exact nomatch List.mem_singleton.mp hmem
  cases hm with
  | succeed =>
    cases List.mem_singleton.mp h
    exact ⟨rfl, rfl⟩
  | io hdo =>
    cases hdo with
    | sent | unsent | sentBlind => exact nomatch List.mem_singleton.mp h
    | _ => exact absurd h List.not_mem_nil
  | exhausted | attemptStop | backoffStop | backoffDone | borrowGaveUp | runGaveUp =>
    exact absurd h hfails
  | deadOnArrival | neverTried | borrowPanicked | runPanicked =>
    exact nomatch List.mem_singleton.mp h
  | _ => exact absurd h List.not_mem_nil

/-! ## Every run -/

structure ReplyInv (w : World) : Prop where
  sockets : SocketInv w
  quiet : ∀ s ∈ w.pool.idleConns, Quiet (w.pool.sockets s)
  ready : ∀ p proc, w.procs p = some proc → proc.ready w.log w.pool.sockets p
  returned : ∀ p values, .returned p (.ok values) ∈ w.log →
    ∃ n, Answered w.log ⟨p, n, .command⟩ values

namespace ReplyInv

variable {w w' : World} {p : ℕ} {proc proc' : Proc}

theorem init (cfg : Config) : ReplyInv (World.init cfg) where
  sockets := .init cfg
  quiet := fun _ h => absurd h List.not_mem_nil
  ready := by
    intro p proc h
    have hnone : (none : Option Proc) = some proc := h
    exact nomatch hnone
  returned := fun _ _ h => absurd h List.not_mem_nil

theorem moved (h : ReplyInv w) (hs : SocketInv (w.moved p sr proc' evs))
    (hp : w.procs p = some proc)
    (hframe : ∀ t, t ∉ proc.hands → t < w.pool.nextSocket → sr.sockets t = w.pool.sockets t)
    (hshelf : ∀ t ∈ sr.idleConns, t ∈ w.pool.idleConns ∨ Quiet (sr.sockets t))
    (hready : proc'.ready (w.log ++ evs) sr.sockets p)
    (hret : ∀ q values, .returned q (.ok values) ∈ evs →
      ∃ n, Answered w.log ⟨q, n, .command⟩ values) :
    ReplyInv (w.moved p sr proc' evs) := by
  have hgrow := List.subset_append_left w.log evs
  obtain ⟨hparked, hothers⟩ := h.sockets.elsewhere hp hframe
  refine ⟨hs, fun t ht => ?_, fun q x hq => ?_, fun q values hmem => ?_⟩
  · rcases hshelf t ht with hold | hq
    · rw [show (w.moved p sr proc' evs).pool.sockets t = _ from hparked t hold]
      exact h.quiet t hold
    · exact hq
  · rcases update_eq_some hq with ⟨rfl, rfl⟩ | ⟨hqp, hq⟩
    · exact hready
    · have hsame := hothers q x hqp hq
      refine Proc.ready_of_sockets (h.ready q x hq) hgrow (fun t ht hquiet => ?_)
        fun t ht tag haw => ?_
      · exact (hsame t ht).symm ▸ hquiet
      · exact (hsame t ht).symm ▸ haw.mono hgrow
  · rcases List.mem_append.mp hmem with hmem | hmem
    · obtain ⟨n, hn⟩ := h.returned q values hmem
      exact ⟨n, hn.mono hgrow⟩
    · obtain ⟨n, hn⟩ := hret q values hmem
      exact ⟨n, hn.mono hgrow⟩

theorem changed (h : ReplyInv w) (hs : SocketInv w') (hprocs : w'.procs = w.procs) {sock : Socket}
    (hpool : w'.pool = w.pool.setSocket s sock) (hlog : w'.log = w.log ++ evs)
    (hevs : ∀ q values, .returned q (.ok values) ∉ evs)
    (hq : Quiet (w.pool.sockets s) → Quiet sock)
    (haw : ∀ tag, Awaiting w.log tag (w.pool.sockets s) → Awaiting w'.log tag sock) :
    ReplyInv w' := by
  have hgrow : w.log ⊆ w'.log := by
    rw [hlog]
    exact List.subset_append_left w.log evs
  have hkeep : ∀ t, Quiet (w.pool.sockets t) → Quiet (w'.pool.sockets t) := by
    intro t ht
    rw [hpool]
    by_cases hts : t = s
    · subst hts
      rw [Pool.sockets_setSocket_self]
      exact hq ht
    · rw [Pool.sockets_setSocket_of_ne hts]
      exact ht
  refine ⟨hs, fun t ht => ?_, fun q x hx => ?_, fun q values hmem => ?_⟩
  · rw [hpool] at ht
    exact hkeep t (h.quiet t ht)
  · rw [hprocs] at hx
    refine Proc.ready_of_sockets (h.ready q x hx) hgrow (fun t _ => hkeep t)
      fun t _ tag ht => ?_
    rw [hpool]
    by_cases hts : t = s
    · subst hts
      rw [Pool.sockets_setSocket_self]
      exact haw tag ht
    · rw [Pool.sockets_setSocket_of_ne hts]
      exact ht.mono hgrow
  · rw [hlog] at hmem
    rcases List.mem_append.mp hmem with hmem | hmem
    · obtain ⟨n, hn⟩ := h.returned q values hmem
      exact ⟨n, hn.mono hgrow⟩
    · exact absurd hmem (hevs q values)

theorem answered (h : ReplyInv w) {tag : Tag} {owed : List Tag} {r : Reply}
    (hs : SocketInv (w.answered s tag owed r))
    (howed : (w.pool.sockets s).owed = tag :: owed) (hwf : r.wellFormed = true) :
    ReplyInv (w.answered s tag owed r) := by
  refine h.changed hs rfl rfl rfl (fun q values hmem => nomatch List.mem_singleton.mp hmem)
    (fun hquiet => ?_) fun tag' haw => ?_
  · rw [hquiet.2.2] at howed
    exact nomatch howed
  · rcases haw with ⟨hone, hbuf, hwire⟩ | ⟨hnone, _⟩
    · rw [hone] at howed
      injection howed with htag hnil
      subst htag hnil
      refine .inr ⟨rfl, r, hwf, List.mem_append.mpr (Or.inr (List.mem_singleton_self _)), ?_⟩
      show (w.pool.sockets s).buffer ++ ((w.pool.sockets s).wire ++ r.encode) <+: r.encode
      rw [hbuf, hwire]
      exact List.prefix_refl _
    · rw [hnone] at howed
      exact nomatch howed

theorem same (h : ReplyInv w) (hs : SocketInv w') (hprocs : w'.procs = w.procs) {sock : Socket}
    (hpool : w'.pool = w.pool.setSocket s sock) (hlog : w'.log = w.log)
    (hbuf : sock.buffer = (w.pool.sockets s).buffer) (hwire : sock.wire = (w.pool.sockets s).wire)
    (howed : sock.owed = (w.pool.sockets s).owed) : ReplyInv w' := by
  refine h.changed hs hprocs hpool (hlog.trans (List.append_nil _).symm)
    (fun _ _ => List.not_mem_nil) (fun hquiet => ?_) fun tag haw => ?_
  · unfold Quiet
    rw [hbuf, hwire, howed]
    exact hquiet
  · unfold Awaiting
    rw [hbuf, hwire, howed, hlog]
    exact haw

theorem cut (h : ReplyInv w) {n : ℕ} (hs : SocketInv (w.runCut s n)) :
    ReplyInv (w.runCut s n) := by
  refine h.changed hs rfl rfl (List.append_nil _).symm (fun _ _ => List.not_mem_nil)
    (fun hquiet => ⟨hquiet.1, ?_, hquiet.2.2⟩) fun tag haw => ?_
  · show (w.pool.sockets s).wire.take n = []
    rw [hquiet.2.1, List.take_nil]
  · rcases haw with ⟨hone, hbuf, hwire⟩ | ⟨hnone, r, hwf, hmem, hpre⟩
    · refine .inl ⟨hone, hbuf, ?_⟩
      show (w.pool.sockets s).wire.take n = []
      rw [hwire, List.take_nil]
    · refine .inr ⟨hnone, r, hwf, hmem, List.IsPrefix.trans ?_ hpre⟩
      exact (List.prefix_append_right_inj _).mpr (List.take_prefix n _)

theorem spawned (h : ReplyInv w) (hs : SocketInv (w.spawn proc))
    (hready : proc.ready w.log w.pool.sockets w.next) : ReplyInv (w.spawn proc) := by
  refine ⟨hs, h.quiet, fun q x hq => ?_, h.returned⟩
  by_cases hn : q = w.next
  · subst hn
    rw [show (w.spawn proc).procs w.next = _ from update_self ..] at hq
    exact Option.some.inj hq ▸ hready
  · exact h.ready q x ((update_of_ne hn ..).symm.trans hq)

theorem ctxEnded (h : ReplyInv w) {c' : Call} (hp : w.procs p = some (.exec c pc))
    (hattempt : c'.attempt = c.attempt) (hs : SocketInv (w.setProc p (.exec c' pc))) :
    ReplyInv (w.setProc p (.exec c' pc)) := by
  refine ⟨hs, h.quiet, fun q x hq => ?_, h.returned⟩
  by_cases hqp : q = p
  · subst hqp
    rw [show (w.setProc q (.exec c' pc)).procs q = _ from update_self ..] at hq
    rw [← Option.some.inj hq]
    have hold : pc.ready w.log w.pool.sockets q c := h.ready q _ hp
    show pc.ready w.log w.pool.sockets q c'
    cases pc with
    | io s verb stage =>
      unfold Pc.ready at hold ⊢
      rw [hattempt]
      exact hold
    | _ => exact hold
  · exact h.ready q x ((update_of_ne hqp ..).symm.trans hq)

theorem step (h : ReplyInv w) {a : Action} (hstep : w.step a = some w') : ReplyInv w' := by
  have hs := h.sockets.step hstep
  cases World.step_cases hstep with
  | exec => exact h.spawned hs trivial
  | close => exact h.spawned hs trivial
  | run hp hm =>
    have hready := h.ready _ _ hp
    refine h.moved hs hp (fun t ht hlt => hm.frame ht hlt) (fun t ht => hm.shelf hready ht)
      (hm.ready h.quiet hready) fun q values hmem => ?_
    obtain ⟨rfl, rfl⟩ := hm.returned hmem
    exact hready values rfl
  | runClose hp hm =>
    refine h.moved hs hp (fun t ht _ => hm.frame ht) (fun t ht => Or.inl ?_) trivial
      fun _ _ hmem => absurd hmem List.not_mem_nil
    cases hm with
    | drain => exact absurd ht List.not_mem_nil
    | _ => exact ht
  | panic hp hm =>
    refine h.moved hs hp (fun t ht _ => hm.frame ht) (fun t ht => Or.inl ?_) ?_
      fun _ _ hmem => absurd hmem List.not_mem_nil
    · cases hm with
      | command | handshake => exact Pool.stopWatch_same.1 ▸ ht
      | _ => exact ht
    · cases hm <;> trivial
  | tick => exact ⟨hs, h.quiet, h.ready, h.returned⟩
  | endCtx _ hp => exact h.ctxEnded hp rfl hs
  | startWatch => exact h.same hs rfl rfl rfl rfl rfl rfl
  | watchClose => exact h.same hs rfl rfl rfl rfl rfl rfl
  | answer howed _ hwf => exact h.answered hs howed hwf
  | cut => exact h.cut hs

end ReplyInv

/-- What a command returns is the value of the peer's reply to one of its own
sends, and a parked socket carries nothing. -/
theorem reply_correlation {cfg : Config} {w₀ w : World} {acts : List Action}
    (hnew : new cfg = .ok w₀) (hrun : run World.step w₀ acts = some w) :
    (∀ p values, .returned p (.ok values) ∈ w.log →
      ∃ n, ∃ r : Reply, .answered ⟨p, n, .command⟩ r ∈ w.log ∧ r.decoded = some values) ∧
    ∀ s ∈ w.pool.idleConns, (w.pool.sockets s).buffer = [] ∧ (w.pool.sockets s).owed = [] := by
  obtain ⟨hinit, _⟩ := new_ok hnew
  have hinv : ReplyInv w := by
    rw [hinit] at hrun
    exact run_inv (fun _ _ _ h hs => h.step hs) (.init _) hrun
  refine ⟨hinv.returned, fun s hs => ?_⟩
  obtain ⟨hbuf, _, howed⟩ := hinv.quiet s hs
  exact ⟨hbuf, howed⟩

/-- The second command is answered on the socket the first one parked. -/
def dialAndReuse : List Action :=
  dialAndPark 0 0 ++ .exec [] ⟨none, none⟩ :: quiet 1 7 ++ sendFor 1 ++
    [Action.answer 0 (.bulk [104, 105]), .run 1 (.arrived 4), .run 1 (.arrived 4)] ++ quiet 1 6

theorem reply_correlation_reuse : ∃ w₀ w : World, new oneSocket = .ok w₀ ∧
    run World.step w₀ dialAndReuse = some w ∧ w.pool.idleConns = [0] ∧
    ∃ n, ∃ r : Reply, .answered ⟨1, n, .command⟩ r ∈ w.log ∧
      r.decoded = some [some [104, 105]] := by
  have h := @reply_correlation oneSocket _ _ dialAndReuse rfl rfl
  exact ⟨_, _, rfl, rfl, by decide +kernel, h.1 1 _ (List.mem_of_getElem? (i := 5) rfl)⟩

end MiddlewareUtils.SimpleRedis
