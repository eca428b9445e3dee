import Mathlib.Data.List.Basic

/-!
# Parsers of a stream that has not all arrived

A reader of a socket sees a growing prefix of what the peer sends, in
fragments it cannot choose. Such a reader is a function of what has arrived
so far: it is done and leaves the rest alone, it refuses, or it has to wait
for more. Fragments then need no model of their own, as long as the answer
does not depend on where the reading was when the next fragment came in.

That is what `Stable` says: an answer, once given, is the answer on every
longer stream. `Frames p w P` is the other half: on a stream that starts
with the frame `w` the parser does not wait, and if it accepts then it takes
exactly `w` and returns something `P` holds of. Both are kept by sequencing,
and together they settle what may be accepted while a frame is still
arriving: nothing but the whole frame (`Frames.whole`).

`Reads p w a` is a frame that is never refused: whatever follows `w`, the
parser takes exactly `w` and returns `a`. It composes the same way, and a
parser that is run again and again reads a concatenation of such frames back
frame by frame (`Reads.times`).

`Accepts p G` says what the frames are: the parser is done exactly on the
streams that start with a word of the grammar `G`, and `G` says what it
returns. The frames of a stable parser are then prefix-free
(`Accepts.more_of_prefix`). `Refuses p E` is about the errors of a parser.
-/

namespace MiddlewareUtils.Lib

variable {τ ε α β : Type*}

/-- What a parser makes of a stream: it wants more, fails, or has a value and the
rest. -/
inductive Parse (τ ε α : Type*) where
  | more
  | fail (e : ε)
  | done (a : α) (rest : List τ)
  deriving DecidableEq, Repr

namespace Parse

def bind (x : Parse τ ε α) (f : α → List τ → Parse τ ε β) : Parse τ ε β :=
  match x with
  | more => more
  | fail e => fail e
  | done a rest => f a rest

/-- The same answer when `t` follows what has arrived. -/
def extend (t : List τ) : Parse τ ε α → Parse τ ε α
  | more => more
  | fail e => fail e
  | done a rest => done a (rest ++ t)

end Parse

open Parse

variable {p : List τ → Parse τ ε α} {f : α → List τ → Parse τ ε β}

def Stable (p : List τ → Parse τ ε α) : Prop :=
  ∀ s t, p s ≠ more → p (s ++ t) = (p s).extend t

namespace Stable

variable {s t : List τ}

theorem of_done (hp : Stable p) {a : α} {rest : List τ} (h : p s = .done a rest) :
    p (s ++ t) = .done a (rest ++ t) := by
  rw [hp s t (by rw [h]; nofun), h]
  rfl

theorem of_fail (hp : Stable p) {e : ε} (h : p s = .fail e) : p (s ++ t) = .fail e := by
  rw [hp s t (by rw [h]; nofun), h]
  rfl

theorem done (a : α) : Stable (Parse.done a : List τ → Parse τ ε α) :=
  fun _ _ _ => rfl

theorem fail (e : ε) : Stable (fun _ => Parse.fail e : List τ → Parse τ ε α) :=
  fun _ _ _ => rfl

theorem bind (hp : Stable p) (hf : ∀ a, Stable (f a)) :
    Stable fun s => (p s).bind f := by
  intro s t hne
  dsimp only at hne ⊢
  cases hs : p s with
  | more => exact absurd (by rw [hs]; rfl) hne
  | fail e =>
    rw [hp.of_fail hs]
    rfl
  | done a rest =>
    rw [hs] at hne
    rw [hp.of_done hs]
    exact hf a rest t hne

end Stable

def Frames (p : List τ → Parse τ ε α) (w : List τ) (P : α → Prop) : Prop :=
  ∀ s, (∃ e, p (w ++ s) = fail e) ∨ ∃ a, p (w ++ s) = done a s ∧ P a

namespace Frames

variable {w w' s : List τ} {P : α → Prop} {Q : β → Prop}

theorem done {a : α} (ha : P a) : Frames (Parse.done a : List τ → Parse τ ε α) [] P :=
  fun _ => Or.inr ⟨a, rfl, ha⟩

theorem fail (e : ε) : Frames (fun _ => Parse.fail e : List τ → Parse τ ε α) w P :=
  fun _ => Or.inl ⟨e, rfl⟩

theorem bind (hp : Frames p w P) (hf : ∀ a, P a → Frames (f a) w' Q) :
    Frames (fun s => (p s).bind f) (w ++ w') Q := by
  intro s
  dsimp only
  rw [List.append_assoc]
  rcases hp (w' ++ s) with ⟨e, he⟩ | ⟨a, ha, hP⟩
  · rw [he]
    exact .inl ⟨e, rfl⟩
  · rw [ha]
    exact hf a hP s

theorem whole (hst : Stable p) (hfr : Frames p w P) (hs : s <+: w) {a : α} {rest : List τ}
    (h : p s = .done a rest) : s = w ∧ rest = [] ∧ P a := by
  obtain ⟨t, rfl⟩ := hs
  have hw := hfr []
  rw [List.append_nil, hst.of_done h] at hw
  rcases hw with ⟨e, he⟩ | ⟨b, hb, hP⟩
  · exact nomatch he
  · injection hb with hab hnil
    obtain ⟨hr, ht⟩ := List.append_eq_nil_iff.mp hnil
    exact ⟨by rw [ht, List.append_nil], hr, hab ▸ hP⟩

end Frames

def Reads (p : List τ → Parse τ ε α) (w : List τ) (a : α) : Prop :=
  ∀ s, p (w ++ s) = done a s

/-- Run the parser `n` times. -/
def times (p : List τ → Parse τ ε α) : ℕ → List τ → Parse τ ε (List α)
  | 0, s => done [] s
  | n + 1, s => (p s).bind fun a rest => (times p n rest).bind fun as rest => done (a :: as) rest

namespace Reads

variable {w w' : List τ} {a : α} {b : β}

theorem bind (hp : Reads p w a) (hf : Reads (f a) w' b) :
    Reads (fun s => (p s).bind f) (w ++ w') b := by
  intro s
  dsimp only
  rw [List.append_assoc, hp]
  exact hf s

theorem times {γ : Type*} {xs : List γ} {write : γ → List τ} {read : γ → α}
    (h : ∀ x ∈ xs, Reads p (write x) (read x)) :
    Reads (Lib.times p xs.length) (xs.flatMap write) (xs.map read) := by
  induction xs with
  | nil => exact fun _ => rfl
  | cons x xs ih =>
    have hrest := ih fun y hy => h y (List.mem_cons_of_mem x hy)
    rw [List.flatMap_cons]
    refine (h x List.mem_cons_self).bind fun s => ?_
    rw [hrest]
    rfl

end Reads

structure Accepts (p : List τ → Parse τ ε α) (G : List τ → α → Prop) : Prop where
  reads : ∀ {w a}, G w a → Reads p w a
  parsed : ∀ {s a rest}, p s = done a rest → ∃ w, G w a ∧ s = w ++ rest

namespace Accepts

variable {G G' : List τ → α → Prop} {H : α → List τ → β → Prop} {s w : List τ} {a : α}

theorem of_iff (h : Accepts p G) (hG : ∀ w a, G w a ↔ G' w a) : Accepts p G' where
  reads hw := h.reads ((hG _ _).mpr hw)
  parsed hs :=
    let ⟨w, hw, heq⟩ := h.parsed hs
    ⟨w, (hG _ _).mp hw, heq⟩

theorem done (a : α) : Accepts (Parse.done a : List τ → Parse τ ε α) fun w b => w = [] ∧ b = a where
  reads := by
    rintro _ _ ⟨rfl, rfl⟩ s
    rfl
  parsed := by
    intro s b rest h
    injection h with hb hs
    exact ⟨[], ⟨rfl, hb.symm⟩, hs⟩

theorem fail (e : ε) : Accepts (fun _ => Parse.fail e : List τ → Parse τ ε α) fun _ _ => False where
  reads := False.elim
  parsed := nofun

theorem bind (hp : Accepts p G) (hf : ∀ a, Accepts (f a) (H a)) :
    Accepts (fun s => (p s).bind f) fun w b => ∃ w₁ a w₂, G w₁ a ∧ H a w₂ b ∧ w = w₁ ++ w₂ where
  reads := by
    rintro _ b ⟨w₁, a, w₂, hG, hH, rfl⟩
    exact (hp.reads hG).bind ((hf a).reads hH)
  parsed := by
    intro s b rest h
    cases hs : p s with
    | more => rw [hs] at h; exact nomatch h
    | fail e => rw [hs] at h; exact nomatch h
    | done a mid =>
      rw [hs] at h
      obtain ⟨w₁, hG, rfl⟩ := hp.parsed hs
      obtain ⟨w₂, hH, rfl⟩ := (hf a).parsed h
      exact ⟨w₁ ++ w₂, ⟨w₁, a, w₂, hG, hH, rfl⟩, (List.append_assoc ..).symm⟩

theorem more_of_prefix (h : Accepts p G) (hst : Stable p) (hw : G w a) (hs : s <+: w)
    (hne : s ≠ w) : p s = more := by
  obtain ⟨t, rfl⟩ := hs
  have hall : p (s ++ t) = .done a [] := by
    have := h.reads hw []
    rwa [List.append_nil] at this
  cases hps : p s with
  | more => rfl
  | fail e => exact nomatch (hst.of_fail hps).symm.trans hall
  | done b rest =>
    rw [hst.of_done hps] at hall
    injection hall with _ hnil
    rw [(List.append_eq_nil_iff.mp hnil).2, List.append_nil] at hne
    exact absurd rfl hne

end Accepts

def Refuses (p : List τ → Parse τ ε α) (E : ε → Prop) : Prop := ∀ s e, p s = fail e → E e

namespace Refuses

variable {E : ε → Prop}

theorem done (a : α) : Refuses (Parse.done a : List τ → Parse τ ε α) E := nofun

theorem fail {e : ε} (he : E e) : Refuses (fun _ => Parse.fail e : List τ → Parse τ ε α) E := by
  intro s e' h
  injection h with h
  exact h ▸ he

theorem bind (hp : Refuses p E) (hf : ∀ a, Refuses (f a) E) :
    Refuses (fun s => (p s).bind f) E := by
  intro s e h
  dsimp only at h
  cases hs : p s with
  | more => rw [hs] at h; exact nomatch h
  | fail e' =>
    rw [hs] at h
    injection h with h
    exact h ▸ hp s e' hs
  | done a rest =>
    rw [hs] at h
    exact hf a rest e h

end Refuses

end MiddlewareUtils.Lib
