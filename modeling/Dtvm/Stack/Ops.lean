import Mathlib.Data.List.Forall2

/-!
# Operand stacks

The instructions of a stack machine by what they do to its operand stack: copy a value, exchange two,
or take some values and give others. A stack is a list with its top first, of values of any type. So one
instruction acts on the words of a run, on what an analysis knows of them, and on the operands of the
code that a compiler generates, and what relates two stacks relates them still after the instruction
(`forall₂_run`, `map_run`). An instruction leaves alone what lies below the values it looks at
(`run_append`).
-/

namespace OperandStack

inductive Op where
  /-- Copy the value that is `n` below the top. -/
  | dup (n : Nat)
  /-- Exchange the top and the value that is `n` below it. -/
  | swap (n : Nat)
  /-- Take values and give new ones. -/
  | plain (pops pushes : Nat)
deriving DecidableEq, Repr

namespace Op

def need : Op → Nat
  | .dup n => n + 1
  | .swap n => n + 1
  | .plain pops _ => pops

def gives : Op → Nat
  | .dup n => n + 2
  | .swap n => n + 1
  | .plain _ pushes => pushes

def fresh : Op → Nat
  | .plain _ pushes => pushes
  | _ => 0

variable {α β : Type}

def run : Op → List α → List α → List α
  | .dup n, _, s => s[n]?.toList ++ s
  | .swap n, _, s => match s[0]?, s[n]? with
    | some a, some b => (s.set 0 b).set n a
    | _, _ => s
  | .plain pops _, out, s => out ++ s.drop pops

theorem run_swap {n : Nat} {s : List α} (first : 0 < s.length) (h : n < s.length) (out : List α) :
    (Op.swap n).run out s = (s.set 0 s[n]).set n s[0] := by
  rw [run, List.getElem?_eq_getElem h, List.getElem?_eq_getElem first]

theorem run_dup {n : Nat} {s : List α} (h : n < s.length) (out : List α) : (Op.dup n).run out s = s[n] :: s := by
  rw [run, List.getElem?_eq_getElem h]
  rfl

theorem length_run {op : Op} {out s : List α} (h : op.need ≤ s.length)
    (fits : out.length = op.fresh) : (op.run out s).length + op.need = s.length + op.gives := by
  cases op with
  | dup n =>
    rw [run_dup h, List.length_cons, need, gives]
    omega
  | swap n =>
    rw [run_swap (Nat.zero_lt_of_lt h) h, List.length_set, List.length_set, need, gives]
  | plain pops pushes =>
    rw [need] at h
    rw [fresh] at fits
    rw [run, List.length_append, List.length_drop, fits, need, gives]
    omega

theorem run_append {op : Op} {s : List α} (h : op.need ≤ s.length) (out t : List α) :
    op.run out (s ++ t) = op.run out s ++ t := by
  have longer : s.length ≤ (s ++ t).length := by
    rw [List.length_append]
    exact Nat.le_add_right _ _
  cases op with
  | dup n =>
    rw [run_dup h, run_dup (Nat.lt_of_lt_of_le h longer), List.getElem_append_left h]
    rfl
  | swap n =>
    have first : 0 < s.length := Nat.zero_lt_of_lt h
    have inside : n < (s.set 0 s[n]).length := by
      rw [List.length_set]
      exact h
    rw [run_swap first h, run_swap (Nat.lt_of_lt_of_le first longer) (Nat.lt_of_lt_of_le h longer),
      List.getElem_append_left h, List.getElem_append_left first, List.set_append_left _ _ first,
      List.set_append_left _ _ inside]
  | plain pops pushes =>
    have enough : pops ≤ s.length := h
    rw [run, run, List.drop_append_of_le_length enough, List.append_assoc]

section Related

variable {R : α → β → Prop}

variable {s : List α} {t : List β} (h : List.Forall₂ R s t)

include h

theorem forall₂_getElem? (n : Nat) : Option.Rel R s[n]? t[n]? := by
  induction h generalizing n with
  | nil => exact .none
  | cons head _ ih =>
    cases n with
    | zero => exact .some head
    | succ n => exact ih n

theorem forall₂_set {a : α} {b : β} (new : R a b) (n : Nat) : List.Forall₂ R (s.set n a) (t.set n b) := by
  induction h generalizing n with
  | nil => exact .nil
  | cons head tail ih =>
    cases n with
    | zero => exact .cons new tail
    | succ n => exact .cons head (ih n)

theorem forall₂_run {op : Op} {out : List α} {out' : List β} (new : List.Forall₂ R out out') :
    List.Forall₂ R (op.run out s) (op.run out' t) := by
  cases op with
  | dup n =>
    have copied := forall₂_getElem? h n
    rw [run, run]
    generalize s[n]? = a, t[n]? = b at copied
    cases copied with
    | none => exact h
    | some rel => exact .cons rel h
  | swap n =>
    have top := forall₂_getElem? h 0
    have other := forall₂_getElem? h n
    rw [run, run]
    generalize s[0]? = a, t[0]? = b, s[n]? = c, t[n]? = d at top other
    cases top with
    | none => exact h
    | some top =>
      cases other with
      | none => exact h
      | some other => exact forall₂_set (forall₂_set h other 0) top n
  | plain pops pushes => exact List.rel_append new (List.forall₂_drop pops h)

end Related

theorem map_run (f : α → β) (op : Op) (out s : List α) : (op.run out s).map f = op.run (out.map f) (s.map f) := by
  have graph : ∀ l : List α, List.Forall₂ (fun a b => f a = b) l (l.map f) := fun l =>
    List.forall₂_map_left_iff.mp (List.forall₂_refl (l.map f))
  have related : List.Forall₂ (fun a b => f a = b) (op.run out s) (op.run (out.map f) (s.map f)) :=
    forall₂_run (graph s) (graph out)
  have same : List.Forall₂ Eq ((op.run out s).map f) (op.run (out.map f) (s.map f)) :=
    List.forall₂_map_left_iff.mpr related
  rwa [List.forall₂_eq_eq_eq] at same

end Op

end OperandStack
