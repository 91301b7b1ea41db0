import Mathlib.Logic.Function.Basic
import Mathlib.Order.Basic

/-!
# Tables by key

`assign` is the assignment to an entry of a table that is kept in the order of its keys.

A `Numbering` gives numbers to keys as they come. It never gives a number twice, so the number of a key
determines the key (`Numbering.inj`), and it never takes one back (`Numbering.Extends`).
-/

namespace Table

section Assign

variable {κ α β : Type} [LT κ] [DecidableLT κ] [DecidableEq κ]

/-- The entry of a key is replaced, or put where the order wants it. -/
def assign (k : κ) (a : α) : List (κ × α) → List (κ × α)
  | [] => [(k, a)]
  | e :: rest =>
    if k = e.1 then (k, a) :: rest
    else if k < e.1 then (k, a) :: e :: rest
    else e :: assign k a rest

theorem map_assign (f : α → β) (k : κ) (a : α) (entries : List (κ × α)) :
    (assign k a entries).map (Prod.map id f) = assign k (f a) (entries.map (Prod.map id f)) := by
  induction entries with
  | nil => rfl
  | cons e rest ih =>
    simp only [assign, List.map_cons, Prod.map_fst, id]
    split
    · rfl
    · split
      · rfl
      · rw [List.map_cons, ih]

theorem eq_or_mem_of_mem_assign {k : κ} {a : α} {entries : List (κ × α)} {e : κ × α}
    (mem : e ∈ assign k a entries) : e = (k, a) ∨ e ∈ entries := by
  induction entries with
  | nil => exact .inl (List.mem_singleton.mp mem)
  | cons first rest ih =>
    rw [assign] at mem
    split at mem
    · rcases List.mem_cons.mp mem with new | old
      · exact .inl new
      · exact .inr (List.mem_cons_of_mem _ old)
    · split at mem
      · exact List.mem_cons.mp mem
      · rcases List.mem_cons.mp mem with same | later
        · exact .inr (same ▸ List.mem_cons_self)
        · exact (ih later).imp_right (List.mem_cons_of_mem _)

end Assign

structure Numbering (κ : Type) where
  ids : κ → Option Nat
  next : Nat
  below : ∀ {k n}, ids k = some n → n < next
  inj : ∀ {k k' n}, ids k = some n → ids k' = some n → k = k'

namespace Numbering

variable {κ : Type}

def start (first : Nat) : Numbering κ where
  ids _ := none
  next := first
  below h := nomatch h
  inj h := nomatch h

def Extends (t t' : Numbering κ) : Prop := ∀ k n, t.ids k = some n → t'.ids k = some n

theorem Extends.rfl {t : Numbering κ} : t.Extends t := fun _ _ h => h

theorem Extends.trans {t t' t'' : Numbering κ} (h : t.Extends t') (h' : t'.Extends t'') :
    t.Extends t'' := fun k n has => h' k n (h k n has)

variable [DecidableEq κ]

def add (t : Numbering κ) (k : κ) (new : t.ids k = none) : Numbering κ where
  ids := Function.update t.ids k (some t.next)
  next := t.next + 1
  below {j n} h := by
    by_cases same : j = k
    · subst same
      rw [Function.update_self, Option.some.injEq] at h
      exact h ▸ Nat.lt_succ_self _
    · rw [Function.update_of_ne same] at h
      exact Nat.lt_succ_of_lt (t.below h)
  inj {j j' n} h h' := by
    -- an old number is below the one that is given now
    by_cases same : j = k
    · by_cases same' : j' = k
      · rw [same, same']
      · rw [same, Function.update_self, Option.some.injEq] at h
        rw [Function.update_of_ne same', ← h] at h'
        exact absurd (t.below h') (Nat.lt_irrefl _)
    · rw [Function.update_of_ne same] at h
      by_cases same' : j' = k
      · rw [same', Function.update_self, Option.some.injEq] at h'
        rw [← h'] at h
        exact absurd (t.below h) (Nat.lt_irrefl _)
      · rw [Function.update_of_ne same'] at h'
        exact t.inj h h'

/-- The number of a key, which is a new one if the key has none. -/
def number (t : Numbering κ) (k : κ) : Nat × Numbering κ :=
  match h : t.ids k with
  | some n => (n, t)
  | none => (t.next, t.add k h)

theorem ids_number (t : Numbering κ) (k : κ) : (t.number k).2.ids k = some (t.number k).1 := by
  rw [number]
  split
  · next n h => exact h
  · exact Function.update_self _ _ _

theorem number_extends (t : Numbering κ) (k : κ) : t.Extends (t.number k).2 := by
  intro j n has
  rw [number]
  split
  · exact has
  · next none =>
    refine (Function.update_of_ne ?_ _ _).trans has
    rintro rfl
    rw [none] at has
    cases has

end Numbering

end Table
