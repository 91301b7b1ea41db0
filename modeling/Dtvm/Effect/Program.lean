import Mathlib.Algebra.Order.Ring.Int
import Mathlib.Tactic.Common

/-!
# Programs over a signature of operations

A program is a tree: it has finished with a value, or it performs one operation of its signature and continues
with the answer. What an operation does to a state is left to a **handler**, given when the program is run.

* `run_bind`: a run of a sequence is a run of its parts;
* `Within` and `run_preserves`: what holds of every operation a program may perform holds of its whole run.

`Within` is a class, so that the operations of a program in `do` notation are collected by instance search. Its
rules are theorems, which a development makes instances at its own signature.
-/

namespace Effect

/-- The operations a program may perform, and the type of the answer to each. -/
structure Signature where
  Op : Type
  Ans : Op → Type

/-- A program: a value, or an operation and a continuation for its answer. -/
inductive Program (S : Signature) (α : Type) : Type where
  | done (a : α)
  | step (o : S.Op) (next : S.Ans o → Program S α)

namespace Program

variable {S : Signature} {α β γ σ ε : Type}

def andThen : Program S α → (α → Program S β) → Program S β
  | .done a, f => f a
  | .step o next, f => .step o fun a => (next a).andThen f

instance : Monad (Program S) where
  pure := .done
  bind := andThen

def perform (o : S.Op) : Program S (S.Ans o) := .step o .done

@[simp] theorem done_bind (a : α) (f : α → Program S β) : (done a >>= f) = f a := rfl

@[simp] theorem step_bind (o : S.Op) (next : S.Ans o → Program S α) (f : α → Program S β) :
    (step o next >>= f) = step o fun a => next a >>= f := rfl

private theorem bind_done (p : Program S α) : p >>= done = p := by
  induction p with
  | done a => rfl
  | step o next ih => simp only [step_bind, ih]

private theorem bind_bind (p : Program S α) (f : α → Program S β) (g : β → Program S γ) :
    p >>= f >>= g = p >>= fun a => f a >>= g := by
  induction p with
  | done a => rfl
  | step o next ih => simp only [step_bind, ih]

instance : LawfulMonad (Program S) :=
  LawfulMonad.mk' (Program S) (fun p => bind_done p) (fun _ _ => rfl) bind_bind

/-! ## Running a program -/

/-- What a machine does with each operation: an answer or a stop, and the state after it. -/
abbrev Handler (S : Signature) (σ ε : Type) := (o : S.Op) → σ → Except ε (S.Ans o) × σ

/-- Run a program against a handler until it has a value or an operation stops it. -/
def run (handle : Handler S σ ε) : Program S α → σ → Except ε α × σ
  | .done a, s => (.ok a, s)
  | .step o next, s =>
    match handle o s with
    | (.ok a, s') => (next a).run handle s'
    | (.error e, s') => (.error e, s')

section

variable (handle : Handler S σ ε)

@[simp] theorem run_done (a : α) (s : σ) : (done a).run handle s = (.ok a, s) := rfl

@[simp] theorem run_pure (a : α) (s : σ) : (pure a : Program S α).run handle s = (.ok a, s) := rfl

@[simp] theorem run_perform (o : S.Op) (s : σ) : (perform o).run handle s = handle o s := by
  simp only [perform, run]
  rcases handle o s with ⟨_ | _, _⟩ <;> rfl

/-- The run of a sequence: the first part's stop, or the second part from where the first ended. -/
theorem run_bind (p : Program S α) (f : α → Program S β) (s : σ) : (p >>= f).run handle s =
      match p.run handle s with
      | (.ok a, s') => (f a).run handle s'
      | (.error e, s') => (.error e, s') := by
  induction p generalizing s with
  | done a => rfl
  | step o next ih =>
    simp only [step_bind, run]
    rcases handle o s with ⟨_ | a, s'⟩
    · rfl
    · exact ih a s'

end

variable {handle : Handler S σ ε} {p : Program S α} {s : σ}

theorem run_bind_ok {s' : σ} {a : α} (h : p.run handle s = (.ok a, s')) (f : α → Program S β) :
    (p >>= f).run handle s = (f a).run handle s' := by
  rw [run_bind, h]

theorem run_bind_error {s' : σ} {e : ε} (h : p.run handle s = (.error e, s')) (f : α → Program S β) :
    (p >>= f).run handle s = (.error e, s') := by
  rw [run_bind, h]

/-- Two continuations that run alike from where the first part ends give the same run. -/
theorem run_bind_congr {f g : α → Program S β}
    (alike : ∀ a s', p.run handle s = (.ok a, s') → (f a).run handle s' = (g a).run handle s') :
    (p >>= f).run handle s = (p >>= g).run handle s := by
  rw [run_bind, run_bind]
  cases h : p.run handle s with
  | mk r s' =>
    cases r with
    | error e => rfl
    | ok a => exact alike a s' h

/-! ## The operations of a program -/

/-- Every operation the program can reach, whatever the answers, is one it may perform. -/
def Performs (may : S.Op → Prop) : Program S α → Prop
  | .done _ => True
  | .step o next => may o ∧ ∀ a, (next a).Performs may

/-- What computing shows to hold; mostly this is all there is to say of an operation. -/
class Holds (p : Prop) : Prop where
  holds : p

instance : Holds True := ⟨trivial⟩

instance (a : α) : Holds (a = a) := ⟨rfl⟩

instance {p q : Prop} [hp : Holds p] [hq : Holds q] : Holds (p ∧ q) := ⟨hp.holds, hq.holds⟩

instance {p q : Prop} [hq : Holds q] : Holds (p → q) := ⟨fun _ => hq.holds⟩

/-- `Within may p`: the program `p` performs only operations that `may` allows. -/
class Within (may : S.Op → Prop) (p : Program S α) : Prop where
  performs : p.Performs may

variable {may : S.Op → Prop}

theorem Within.perform {o : S.Op} (h : may o) : Within may (perform o) :=
  ⟨h, fun _ => trivial⟩

theorem Within.pure (a : α) : Within may (pure a : Program S α) := ⟨trivial⟩

theorem Within.step {o : S.Op} {next : S.Ans o → Program S α} (h : may o)
    (rest : ∀ a, Within may (next a)) : Within may (.step o next) :=
  ⟨h, fun a => (rest a).performs⟩

theorem Within.of_step {o : S.Op} {next : S.Ans o → Program S α} (h : Within may (.step o next)) :
    may o ∧ ∀ a, Within may (next a) :=
  ⟨h.performs.1, fun a => ⟨h.performs.2 a⟩⟩

theorem Within.bind {f : α → Program S β} (hp : Within may p) (hf : ∀ a, Within may (f a)) : Within may (p >>= f) := by
  induction p with
  | done a => exact hf a
  | step o next ih =>
    obtain ⟨allowed, rest⟩ := hp.of_step
    exact .step allowed fun a => ih a (rest a)

theorem Within.after {p : Program S α} {f : α → Program S β} [hp : Within may p] (hf : ∀ a, Within may (f a)) :
    Within may (p >>= f) := hp.bind hf

theorem Within.ite {c : Prop} [Decidable c] {q : Program S α} (hp : Within may p)
    (hq : Within may q) : Within may (if c then p else q) := by
  split
  · exact hp
  · exact hq

theorem Within.mono {may' : S.Op → Prop} (sub : ∀ o, may o → may' o) (h : Within may p) : Within may' p := by
  induction p with
  | done a => exact ⟨trivial⟩
  | step o next ih =>
    obtain ⟨allowed, rest⟩ := h.of_step
    exact .step (sub o allowed) fun a => ih a (rest a)

theorem Within.all (p : Program S α) : Within (fun _ => True) p := by
  induction p with
  | done a => exact .pure a
  | step o next ih => exact .step trivial ih

/-! ## Invariants and relations along a run -/

/-- **The invariant rule**: what every allowed operation preserves, a run preserves. -/
theorem run_preserves {inv : σ → Prop}
    (keeps : ∀ o s, may o → inv s → inv (handle o s).2) (h : Within may p) (hs : inv s) : inv (p.run handle s).2 := by
  induction p generalizing s with
  | done a => exact hs
  | step o next ih =>
    obtain ⟨allowed, rest⟩ := h.of_step
    have kept := keeps o s allowed hs
    simp only [run]
    revert kept
    rcases handle o s with ⟨_ | a, s'⟩
    · exact id
    · exact fun kept => ih a (rest a) kept

/-- A run is stopped by one of its operations: what holds of every stop an allowed operation can
cause holds of the run's. -/
theorem run_stop {bad : ε → Prop} (stops : ∀ o s e s', may o → handle o s = (.error e, s') → bad e)
    (h : Within may p) {s' : σ} {e : ε} (stopped : p.run handle s = (.error e, s')) : bad e := by
  induction p generalizing s with
  | done a => cases stopped
  | step o next ih =>
    obtain ⟨allowed, rest⟩ := h.of_step
    simp only [run] at stopped
    cases answer : handle o s with
    | mk r s₁ =>
      rw [answer] at stopped
      cases r with
      | error e' =>
        cases stopped
        exact stops o s e s' allowed answer
      | ok a => exact ih a (rest a) stopped

end Program

end Effect
