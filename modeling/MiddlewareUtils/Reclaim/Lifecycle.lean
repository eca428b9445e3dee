import MiddlewareUtils.Reclaim.Machine

/-!
# The lifecycle of one incarnation

What the table promises a value: it is created, then put to sleep and woken
any number of times, then put to sleep a last time and closed, one call
after the other. If Sleep or Wake panics, Close follows at once and nothing
follows that.

`calls` reads the hook calls of one incarnation off the log, each with how
far it got. `Lifecycle` states the promise about such a list. `Trace` is the
same promise as a machine of phases, which is the form the table can be
shown to follow step by step; `Trace.lifecycle` connects the two.
-/

namespace MiddlewareUtils.Reclaim

inductive Outcome where
  | running
  | returned
  | panicked
  deriving DecidableEq, Repr

/-- A hook call. For create, `panicked` also stands for a returned error:
either way there is no value. -/
structure Call where
  hook : Hook
  outcome : Outcome
  deriving DecidableEq, Repr

def outcomeOf (ok : Bool) : Outcome := if ok then .returned else .panicked

def settle (h : Hook) (ok : Bool) (cs : List Call) : List Call :=
  cs.map fun c => if c.hook = h ∧ c.outcome = .running then ⟨h, outcomeOf ok⟩ else c

def record (i : ℕ) (cs : List Call) : Event → List Call
  | .start h j _ => if j = i then cs ++ [⟨h, .running⟩] else cs
  | .ret h j _ ok => if j = i then settle h ok cs else cs
  | _ => cs

/-- The hook calls incarnation `i` has received, in order. -/
def calls (i : ℕ) (log : List Event) : List Call := log.foldl (record i) []

/-- `create (Sleep Wake)*`, with `n` rounds. -/
def awakeWord : ℕ → List Hook
  | 0 => [.create]
  | n + 1 => awakeWord n ++ [Hook.sleep, .wake]

/-- `create (Sleep Wake)* Sleep Close`, with `n` rounds. -/
def word (n : ℕ) : List Hook := awakeWord n ++ [Hook.sleep, .close]

/-- Call `b` may come right after call `a`: `a` is over, and if it panicked
only Close is left. Nothing comes after Close. -/
def Follows (a b : Call) : Prop :=
  match b.hook with
  | .create => False
  | .sleep => (a.hook = .create ∨ a.hook = .wake) ∧ a.outcome = .returned
  | .wake => a.hook = .sleep ∧ a.outcome = .returned
  | .close => (a.hook = .sleep ∧ a.outcome ≠ .running) ∨ (a.hook = .wake ∧ a.outcome = .panicked)

/-- What the calls of one created incarnation look like at any time. -/
structure Lifecycle (cs : List Call) : Prop where
  /-- A prefix of the language, except that a Wake that panicked is the end
  of it but for one Close. -/
  language : (∃ n, cs.map Call.hook <+: word n) ∨
    ∃ n pre o, cs = pre ++ [⟨.wake, .panicked⟩, ⟨.close, o⟩] ∧
      pre.map Call.hook ++ [Hook.wake] <+: word n
  /-- One call at a time, each allowed after the one before. -/
  follows : cs.IsChain Follows
  close_once : (cs.map Call.hook).count .close ≤ 1

/-! ## The phases -/

inductive Phase where
  | unborn
  /-- A closer: it keeps the key and never holds a value. -/
  | keeper
  | creating
  | failed
  | awake
  | sleeping
  | asleep
  | waking
  | broken
  | closing
  | closed
  deriving DecidableEq, Repr

inductive Trace : Phase → List Call → Prop
  | unborn : Trace .unborn []
  | keeper : Trace .keeper []
  | creating : Trace .creating [⟨.create, .running⟩]
  | failed : Trace .failed [⟨.create, .panicked⟩]
  | created : Trace .awake [⟨.create, .returned⟩]
  | sleeping {cs} : Trace .awake cs → Trace .sleeping (cs ++ [⟨.sleep, .running⟩])
  | asleep {cs} : Trace .awake cs → Trace .asleep (cs ++ [⟨.sleep, .returned⟩])
  | sleepBroke {cs} : Trace .awake cs → Trace .broken (cs ++ [⟨.sleep, .panicked⟩])
  | waking {cs} : Trace .asleep cs → Trace .waking (cs ++ [⟨.wake, .running⟩])
  | woken {cs} : Trace .asleep cs → Trace .awake (cs ++ [⟨.wake, .returned⟩])
  | wakeBroke {cs} : Trace .asleep cs → Trace .broken (cs ++ [⟨.wake, .panicked⟩])
  | closing {ph cs} : ph = .asleep ∨ ph = .broken → Trace ph cs →
      Trace .closing (cs ++ [⟨.close, .running⟩])
  | closed {ph cs} {ok : Bool} : ph = .asleep ∨ ph = .broken → Trace ph cs →
      Trace .closed (cs ++ [⟨.close, outcomeOf ok⟩])

theorem outcomeOf_ne_running {ok : Bool} : outcomeOf ok ≠ .running := by
  cases ok <;> exact nofun

def Rests (cs : List Call) : Prop := ∀ c ∈ cs, c.outcome ≠ .running

theorem Rests.append {cs : List Call} {c : Call} (h : Rests cs) (hc : c.outcome ≠ .running) :
    Rests (cs ++ [c]) := by
  intro d hd
  rcases List.mem_append.mp hd with hd | hd
  · exact h d hd
  · rw [List.mem_singleton] at hd
    rw [hd]
    exact hc

theorem Trace.rests {ph : Phase} {cs : List Call} (h : Trace ph cs)
    (hph : ph = .awake ∨ ph = .asleep ∨ ph = .broken) : Rests cs := by
  induction h with
  | unborn | keeper | creating | failed | sleeping | waking | closing | closed => simp at hph
  | created =>
    intro c hc
    rw [List.mem_singleton] at hc
    rw [hc]
    exact nofun
  | asleep _ ih => exact (ih (Or.inl rfl)).append nofun
  | sleepBroke _ ih => exact (ih (Or.inl rfl)).append nofun
  | woken _ ih => exact (ih (Or.inr (Or.inl rfl))).append nofun
  | wakeBroke _ ih => exact (ih (Or.inr (Or.inl rfl))).append nofun

theorem settle_append {cs : List Call} {h : Hook} {ok : Bool} (hcs : Rests cs) :
    settle h ok (cs ++ [⟨h, .running⟩]) = cs ++ [⟨h, outcomeOf ok⟩] := by
  unfold settle
  rw [List.map_append, List.map_singleton, if_pos ⟨rfl, rfl⟩]
  congr 1
  refine (List.map_congr_left fun c hc => if_neg fun hrun => hcs c hc hrun.2).trans ?_
  exact List.map_id' cs

def Phase.start : Phase → Hook → Option Phase
  | unborn, .create => some creating
  | awake, .sleep => some sleeping
  | asleep, .wake => some waking
  | asleep, .close | broken, .close => some closing
  | _, _ => none

/-- The phase once the call has ended. -/
def Phase.ret : Phase → Hook → Bool → Option Phase
  | creating, .create, true => some awake
  | creating, .create, false => some failed
  | sleeping, .sleep, true => some asleep
  | sleeping, .sleep, false => some broken
  | waking, .wake, true => some awake
  | waking, .wake, false => some broken
  | closing, .close, _ => some closed
  | _, _, _ => none

theorem Trace.start {ph ph' : Phase} {cs : List Call} {h : Hook} (htr : Trace ph cs)
    (hph : ph.start h = some ph') : Trace ph' (cs ++ [⟨h, .running⟩]) := by
  unfold Phase.start at hph
  split at hph <;> cases hph
  · cases htr
    exact .creating
  · exact .sleeping htr
  · exact .waking htr
  · exact .closing (Or.inl rfl) htr
  · exact .closing (Or.inr rfl) htr

theorem Trace.ret {ph ph' : Phase} {cs : List Call} {h : Hook} {ok : Bool} (htr : Trace ph cs)
    (hph : ph.ret h ok = some ph') : Trace ph' (settle h ok cs) := by
  unfold Phase.ret at hph
  split at hph <;> cases hph <;> cases htr
  · exact .created
  · exact .failed
  next htr => exact settle_append (htr.rests (Or.inl rfl)) ▸ .asleep htr
  next htr => exact settle_append (htr.rests (Or.inl rfl)) ▸ .sleepBroke htr
  next htr => exact settle_append (htr.rests (Or.inr (Or.inl rfl))) ▸ .woken htr
  next htr => exact settle_append (htr.rests (Or.inr (Or.inl rfl))) ▸ .wakeBroke htr
  next hph htr => exact settle_append (htr.rests (Or.inr hph)) ▸ .closed hph htr

/-! ## What the phases promise -/

theorem awakeWord_prefix (n : ℕ) : awakeWord n ++ [Hook.sleep] <+: word n :=
  ⟨[.close], by rw [word, List.append_assoc]; rfl⟩

theorem awakeWord_wake_prefix (n : ℕ) : awakeWord n ++ [Hook.sleep, .wake] <+: word (n + 1) :=
  ⟨[.sleep, .close], rfl⟩

theorem count_close_awakeWord (n : ℕ) : (awakeWord n).count .close = 0 := by
  induction n with
  | zero => rfl
  | succ n ih => rw [awakeWord, List.count_append, ih]; rfl

theorem Trace.names {ph : Phase} {cs : List Call} (h : Trace ph cs) :
    (ph = .awake → ∃ n, cs.map Call.hook = awakeWord n) ∧
    (ph = .asleep → ∃ n, cs.map Call.hook = awakeWord n ++ [Hook.sleep]) ∧
    (ph = .broken → (∃ n, cs.map Call.hook = awakeWord n ++ [Hook.sleep]) ∨
      ∃ n pre, cs = pre ++ [⟨.wake, .panicked⟩] ∧
        pre.map Call.hook = awakeWord n ++ [Hook.sleep]) := by
  induction h with
  | unborn | keeper | creating | failed | sleeping | waking | closing | closed =>
    refine ⟨?_, ?_, ?_⟩ <;> exact fun hc => by cases hc
  | created => exact ⟨fun _ => ⟨0, rfl⟩, nofun, nofun⟩
  | asleep _ ih =>
    obtain ⟨n, hn⟩ := ih.1 rfl
    exact ⟨nofun, fun _ => ⟨n, by rw [List.map_append, hn]; rfl⟩, nofun⟩
  | sleepBroke _ ih =>
    obtain ⟨n, hn⟩ := ih.1 rfl
    exact ⟨nofun, nofun, fun _ => Or.inl ⟨n, by rw [List.map_append, hn]; rfl⟩⟩
  | woken _ ih =>
    obtain ⟨n, hn⟩ := ih.2.1 rfl
    refine ⟨fun _ => ⟨n + 1, ?_⟩, nofun, nofun⟩
    rw [List.map_append, hn, awakeWord, List.append_assoc]
    rfl
  | wakeBroke _ ih =>
    obtain ⟨n, hn⟩ := ih.2.1 rfl
    exact ⟨nofun, nofun, fun _ => Or.inr ⟨n, _, rfl, hn⟩⟩

theorem follows_append {cs : List Call} {c : Call} (h : cs.IsChain Follows)
    (hlast : ∀ d ∈ cs.getLast?, Follows d c) : (cs ++ [c]).IsChain Follows := by
  refine List.isChain_append.mpr ⟨h, List.isChain_singleton c, ?_⟩
  intro d hd e he
  rw [List.head?_singleton, Option.mem_some_iff] at he
  exact he ▸ hlast d hd

theorem Trace.follows {ph : Phase} {cs : List Call} (h : Trace ph cs) :
    cs.IsChain Follows ∧
    (ph = .awake → ∀ d ∈ cs.getLast?, (d.hook = .create ∨ d.hook = .wake) ∧
      d.outcome = .returned) ∧
    (ph = .asleep → ∀ d ∈ cs.getLast?, d.hook = .sleep ∧ d.outcome = .returned) ∧
    (ph = .broken → ∀ d ∈ cs.getLast?, (d.hook = .sleep ∨ d.hook = .wake) ∧
      d.outcome = .panicked) := by
  have hlast : ∀ {cs : List Call} {c d : Call}, d ∈ (cs ++ [c]).getLast? → d = c := by
    intro cs c d hd
    rw [List.getLast?_append, List.getLast?_singleton] at hd
    exact (Option.mem_some_iff.mp hd).symm
  have hclose : ∀ {cs : List Call} {o : Outcome}, cs.IsChain Follows →
      (∀ d ∈ cs.getLast?, (d.hook = .sleep ∧ d.outcome = .returned) ∨
        ((d.hook = .sleep ∨ d.hook = .wake) ∧ d.outcome = .panicked)) →
      (cs ++ [Call.mk .close o]).IsChain Follows := by
    intro cs o hcs hd
    refine follows_append hcs fun d hmem => ?_
    show (_ ∧ _) ∨ (_ ∧ _)
    rcases hd d hmem with ⟨hh, ho⟩ | ⟨hh | hh, ho⟩
    · exact .inl ⟨hh, by rw [ho]; exact nofun⟩
    · exact .inl ⟨hh, by rw [ho]; exact nofun⟩
    · exact .inr ⟨hh, ho⟩
  induction h with
  | unborn | keeper => exact ⟨List.isChain_nil, nofun, nofun, nofun⟩
  | creating | failed => exact ⟨List.isChain_singleton _, nofun, nofun, nofun⟩
  | created =>
    refine ⟨List.isChain_singleton _, fun _ d hd => ?_, nofun, nofun⟩
    obtain rfl := Option.mem_some_iff.mp hd
    exact ⟨Or.inl rfl, rfl⟩
  | sleeping _ ih => exact ⟨follows_append ih.1 (ih.2.1 rfl), nofun, nofun, nofun⟩
  | asleep _ ih =>
    refine ⟨follows_append ih.1 (ih.2.1 rfl), nofun, fun _ d hd => ?_, nofun⟩
    rw [hlast hd]
    exact ⟨rfl, rfl⟩
  | sleepBroke _ ih =>
    refine ⟨follows_append ih.1 (ih.2.1 rfl), nofun, nofun, fun _ d hd => ?_⟩
    rw [hlast hd]
    exact ⟨Or.inl rfl, rfl⟩
  | waking _ ih => exact ⟨follows_append ih.1 (ih.2.2.1 rfl), nofun, nofun, nofun⟩
  | woken _ ih =>
    refine ⟨follows_append ih.1 (ih.2.2.1 rfl), fun _ d hd => ?_, nofun, nofun⟩
    rw [hlast hd]
    exact ⟨Or.inr rfl, rfl⟩
  | wakeBroke _ ih =>
    refine ⟨follows_append ih.1 (ih.2.2.1 rfl), nofun, nofun, fun _ d hd => ?_⟩
    rw [hlast hd]
    exact ⟨Or.inr rfl, rfl⟩
  | closing hph _ ih =>
    refine ⟨hclose ih.1 fun d hd => ?_, nofun, nofun, nofun⟩
    rcases hph with rfl | rfl
    · exact .inl (ih.2.2.1 rfl d hd)
    · exact .inr (ih.2.2.2 rfl d hd)
  | closed hph _ ih =>
    refine ⟨hclose ih.1 fun d hd => ?_, nofun, nofun, nofun⟩
    rcases hph with rfl | rfl
    · exact .inl (ih.2.2.1 rfl d hd)
    · exact .inr (ih.2.2.2 rfl d hd)

theorem count_close_word (n : ℕ) : (word n).count .close = 1 := by
  rw [word, List.count_append, count_close_awakeWord]
  rfl

theorem Lifecycle.of_prefix {cs : List Call} {n : ℕ} (hf : cs.IsChain Follows)
    (hn : cs.map Call.hook <+: word n) : Lifecycle cs :=
  ⟨Or.inl ⟨n, hn⟩, hf, count_close_word n ▸ hn.sublist.count_le .close⟩

theorem Lifecycle.closing {ph : Phase} {cs : List Call} {o : Outcome}
    (hph : ph = .asleep ∨ ph = .broken) (h : Trace ph cs)
    (hf : (cs ++ [Call.mk .close o]).IsChain Follows) :
    Lifecycle (cs ++ [Call.mk .close o]) := by
  have hsleep : ∀ n, cs.map Call.hook = awakeWord n ++ [Hook.sleep] →
      Lifecycle (cs ++ [Call.mk .close o]) := by
    intro n hn
    refine Lifecycle.of_prefix hf (n := n) ?_
    rw [List.map_append, hn, word, List.append_assoc]
    exact List.prefix_rfl
  rcases hph with rfl | rfl
  · obtain ⟨n, hn⟩ := h.names.2.1 rfl
    exact hsleep n hn
  · rcases h.names.2.2 rfl with ⟨n, hn⟩ | ⟨n, pre, rfl, hpre⟩
    · exact hsleep n hn
    · refine ⟨Or.inr ⟨n + 1, pre, o, by rw [List.append_assoc]; rfl, ?_⟩, hf, ?_⟩
      · rw [hpre, List.append_assoc]
        exact awakeWord_wake_prefix n
      · rw [List.map_append, List.map_append, hpre, List.count_append, List.count_append,
          List.count_append, count_close_awakeWord]
        exact le_refl 1

theorem Trace.lifecycle {ph : Phase} {cs : List Call} (h : Trace ph cs)
    (hborn : ⟨.create, .returned⟩ ∈ cs) : Lifecycle cs := by
  have hf := h.follows.1
  have hsleep : ∀ {cs : List Call} {o : Outcome}, Trace .awake cs →
      ∃ n, (cs ++ [Call.mk .sleep o]).map Call.hook <+: word n := by
    intro cs o h
    obtain ⟨n, hn⟩ := h.names.1 rfl
    refine ⟨n, ?_⟩
    rw [List.map_append, hn]
    exact awakeWord_prefix n
  have hwake : ∀ {cs : List Call} {o : Outcome}, Trace .asleep cs →
      ∃ n, (cs ++ [Call.mk .wake o]).map Call.hook <+: word n := by
    intro cs o h
    obtain ⟨n, hn⟩ := h.names.2.1 rfl
    refine ⟨n + 1, ?_⟩
    rw [List.map_append, hn, List.append_assoc]
    exact awakeWord_wake_prefix n
  cases h with
  | unborn | keeper | creating | failed => simp at hborn
  | created => exact Lifecycle.of_prefix hf (n := 0) ⟨[.sleep, .close], rfl⟩
  | sleeping h | asleep h | sleepBroke h =>
    obtain ⟨n, hn⟩ := hsleep h
    exact Lifecycle.of_prefix hf hn
  | waking h | woken h | wakeBroke h =>
    obtain ⟨n, hn⟩ := hwake h
    exact Lifecycle.of_prefix hf hn
  | closing hph h => exact Lifecycle.closing hph h hf
  | closed hph h => exact Lifecycle.closing hph h hf

theorem Trace.created_of_awake {ph : Phase} {cs : List Call} (h : Trace ph cs)
    (hph : ph = .awake ∨ ph = .asleep) : ⟨.create, .returned⟩ ∈ cs := by
  induction h with
  | created => exact List.mem_singleton.mpr rfl
  | asleep _ ih => exact List.mem_append_left _ (ih (Or.inl rfl))
  | woken _ ih => exact List.mem_append_left _ (ih (Or.inr rfl))
  | unborn | keeper | creating | failed | sleeping | sleepBroke | waking | wakeBroke | closing
  | closed => simp at hph

/-! ## Reading the log on -/

section Log

variable {i j : ℕ} {log : List Event} {h : Hook} {key : String} {ok : Bool}

theorem calls_append {evs : List Event} :
    calls i (log ++ evs) = evs.foldl (record i) (calls i log) :=
  List.foldl_append

/-- An event that is no hook call of `i`. -/
def Event.foreign (i : ℕ) : Event → Prop
  | start _ j _ | ret _ j _ _ => j ≠ i
  | _ => True

theorem calls_of_foreign {evs : List Event} (hevs : ∀ e ∈ evs, e.foreign i) :
    calls i (log ++ evs) = calls i log := by
  induction evs generalizing log with
  | nil => rw [List.append_nil]
  | cons e evs ih =>
    have hrec : record i (calls i log) e = calls i log := by
      have he := hevs e List.mem_cons_self
      cases e with
      | start h j key => exact if_neg he
      | ret h j key ok => exact if_neg he
      | _ => rfl
    rw [calls_append, List.foldl_cons, hrec, ← calls_append]
    exact ih fun e' he' => hevs e' (List.mem_cons_of_mem e he')

theorem calls_start : calls i (log ++ [Event.start h i key]) = calls i log ++ [⟨h, .running⟩] := by
  rw [calls_append, List.foldl_cons, List.foldl_nil, record, if_pos rfl]

theorem calls_ret : calls i (log ++ [Event.ret h i key ok]) = settle h ok (calls i log) := by
  rw [calls_append, List.foldl_cons, List.foldl_nil, record, if_pos rfl]

theorem calls_ne_nil_of_start (hs : .start h i key ∈ log) : calls i log ≠ [] := by
  induction log using List.reverseRecOn with
  | nil => cases hs
  | append_singleton log e ih =>
    rw [calls_append, List.foldl_cons, List.foldl_nil]
    rcases List.mem_append.mp hs with hs | hs
    · have hne := ih hs
      cases e with
      | start h' j k =>
        rw [record]
        split
        · exact List.append_ne_nil_of_left_ne_nil hne _
        · exact hne
      | ret h' j k ok =>
        rw [record]
        split
        · exact fun hnil => hne (List.map_eq_nil_iff.mp hnil)
        · exact hne
      | _ => exact hne
    · rw [← List.mem_singleton.mp hs, record, if_pos rfl]
      exact List.append_ne_nil_of_right_ne_nil _ (List.cons_ne_nil _ _)

theorem settled_mem_append {c : Call} {evs : List Event} (hc : c ∈ calls i log)
    (hover : c.outcome ≠ .running) : c ∈ calls i (log ++ evs) := by
  induction evs generalizing log with
  | nil =>
    rw [List.append_nil]
    exact hc
  | cons e evs ih =>
    rw [List.append_cons]
    refine ih ?_
    rw [calls_append, List.foldl_cons, List.foldl_nil]
    cases e with
    | start h' j k =>
      rw [record]
      split
      · exact List.mem_append_left _ hc
      · exact hc
    | ret h' j k ok =>
      rw [record]
      split
      · exact List.mem_map.mpr ⟨c, hc, if_neg fun hrun => hover hrun.2⟩
      · exact hc
    | _ => exact hc

theorem ret_of_settled {c : Call} (hc : c ∈ calls i log) (hover : c.outcome ≠ .running) :
    ∃ k ok, .ret c.hook i k ok ∈ log := by
  induction log using List.reverseRecOn with
  | nil => cases hc
  | append_singleton log e ih =>
    have hold : c ∈ calls i log → ∃ k ok, .ret c.hook i k ok ∈ log ++ [e] := by
      intro hc
      obtain ⟨k, ok, hmem⟩ := ih hc
      exact ⟨k, ok, List.mem_append_left _ hmem⟩
    rw [calls_append, List.foldl_cons, List.foldl_nil] at hc
    cases e with
    | start h' j k =>
      rw [record] at hc
      split at hc
      · rcases List.mem_append.mp hc with hc | hc
        · exact hold hc
        · rw [List.mem_singleton.mp hc] at hover
          exact absurd rfl hover
      · exact hold hc
    | ret h' j k ok =>
      rw [record] at hc
      split at hc
      next hj =>
        obtain ⟨d, hd, hdc⟩ := List.mem_map.mp hc
        split at hdc
        · subst hdc
          exact ⟨k, ok, List.mem_append_right _ (List.mem_singleton.mpr (by rw [hj]))⟩
        · exact hold (hdc ▸ hd)
      · exact hold hc
    | _ => exact hold hc

end Log

end MiddlewareUtils.Reclaim
