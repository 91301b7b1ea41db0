import Mathlib.Logic.Basic
import Mathlib.Tactic.Common

/-!
# Decoders that look at the bytes they use only

A decoder takes a value off the front of a list and says how long it was. It is *local* when it does not
depend on what follows: so code may change behind an instruction without the instruction being another one.
-/

namespace Decoder

variable {ι α β : Type}

/-- The value has the stated length, and is there whatever follows. -/
structure Local (d : List ι → Option (α × Nat)) : Prop where
  anywhere {input : List ι} {a : α} {n : Nat} : d input = some (a, n) →
    n ≤ input.length ∧ ∀ rest, d (input.take n ++ rest) = some (a, n)

theorem Local.congr {d d' : List ι → Option (α × Nat)} (hd : Local d) (same : ∀ input, d' input = d input) :
    Local d' := funext same ▸ hd

theorem local_pure (a : α) : Local fun _ : List ι => some (a, 0) := by
  refine ⟨fun {input b n} h => ?_⟩
  cases h
  exact ⟨Nat.zero_le _, fun _ => rfl⟩

theorem local_none : Local fun _ : List ι => (none : Option (α × Nat)) := ⟨nofun⟩

theorem local_bind {d : List ι → Option (α × Nat)} {next : α → List ι → Option (β × Nat)} (hd : Local d)
    (hnext : ∀ a, Local (next a)) : Local fun input => (d input).bind fun r =>
      (next r.1 (input.drop r.2)).bind fun q => some (q.1, r.2 + q.2) := by
  refine ⟨fun {input b k} h => ?_⟩
  obtain ⟨⟨a, n⟩, first, h⟩ := Option.bind_eq_some_iff.mp h
  obtain ⟨⟨b', m⟩, second, h⟩ := Option.bind_eq_some_iff.mp h
  cases h
  obtain ⟨fits, first⟩ := hd.anywhere first
  obtain ⟨fits', second⟩ := (hnext a).anywhere second
  rw [List.length_drop] at fits'
  refine ⟨by dsimp only at *; omega, fun rest => ?_⟩
  have split : input.take (n + m) ++ rest = input.take n ++ ((input.drop n).take m ++ rest) := by
    rw [List.take_add, List.append_assoc]
  have behind : (input.take n ++ ((input.drop n).take m ++ rest)).drop n = (input.drop n).take m ++ rest :=
    List.drop_left' (List.length_take_of_le fits)
  rw [split, first, Option.bind_some, behind, second, Option.bind_some]

theorem local_map {d : List ι → Option (α × Nat)} (hd : Local d) (f : α → β) :
    Local fun input => (d input).bind fun r => some (f r.1, r.2) := by
  refine ⟨fun {input b n} h => ?_⟩
  obtain ⟨⟨a, k⟩, here, h⟩ := Option.bind_eq_some_iff.mp h
  cases h
  obtain ⟨fits, anywhere⟩ := hd.anywhere here
  refine ⟨fits, fun rest => ?_⟩
  rw [anywhere, Option.bind_some]

theorem local_head (f : ι → Option α) (g : α → β) :
    Local fun input : List ι => (input.head?.bind f).bind fun a => some (g a, 1) := by
  refine ⟨fun {input b n} h => ?_⟩
  obtain ⟨a, here, h⟩ := Option.bind_eq_some_iff.mp h
  cases h
  obtain ⟨b, head, here⟩ := Option.bind_eq_some_iff.mp here
  cases input with
  | nil => cases head
  | cons b' input =>
    obtain rfl := Option.some.inj head
    refine ⟨Nat.succ_pos _, fun rest => ?_⟩
    show ((some b').bind f).bind _ = _
    rw [Option.bind_some, here, Option.bind_some]

theorem local_take (k : Nat) :
    Local fun input : List ι => if input.length < k then none else some (input.take k, k) := by
  refine ⟨fun {input a n} h => ?_⟩
  obtain ⟨room, h⟩ := Option.ite_none_left_eq_some.mp h
  obtain ⟨rfl, rfl⟩ := Prod.ext_iff.mp (Option.some.inj h)
  have fits : k ≤ input.length := Nat.le_of_not_lt room
  refine ⟨fits, fun rest => ?_⟩
  have length : (input.take k).length = k := List.length_take_of_le fits
  rw [if_neg (by rw [List.length_append, length]; omega), List.take_left' length]

end Decoder
