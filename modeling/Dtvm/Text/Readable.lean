import Mathlib

/-!
# Codes that are read from the front

A code is readable if what comes after an encoding does not matter for where it ends. No encoding is then the
front of another, and a list of items is determined by their encodings one behind the other.
-/

namespace Text

variable {α β : Type} {p : α → Prop} {enc : α → List β}

/-- On the items with `p`, an encoding in front determines its item and the rest. -/
def Readable (p : α → Prop) (enc : α → List β) : Prop :=
  ∀ {a b : α} {r q : List β}, p a → p b → enc a ++ r = enc b ++ q → a = b ∧ r = q

namespace Readable

variable (h : Readable p enc)

include h

theorem eq_of_prefix {a b : α} (ha : p a) (hb : p b) (front : enc a <+: enc b) : a = b := by
  obtain ⟨rest, same⟩ := front
  exact (h ha hb (same.trans (List.append_nil _).symm)).1

theorem flatMap_inj (some : ∀ a, enc a ≠ []) {xs ys : List α} (hx : ∀ x ∈ xs, p x) (hy : ∀ y ∈ ys, p y)
    (same : xs.flatMap enc = ys.flatMap enc) : xs = ys := by
  induction xs generalizing ys with
  | nil =>
    cases ys with
    | nil => rfl
    | cons y ys => exact absurd (List.append_eq_nil_iff.mp same.symm).1 (some y)
  | cons x xs ih =>
    cases ys with
    | nil => exact absurd (List.append_eq_nil_iff.mp same).1 (some x)
    | cons y ys =>
      obtain ⟨rfl, rest⟩ := h (hx x List.mem_cons_self) (hy y List.mem_cons_self) same
      rw [ih (fun x mem => hx x (List.mem_cons_of_mem _ mem)) (fun y mem => hy y (List.mem_cons_of_mem _ mem)) rest]

end Readable

end Text
