import Mathlib.Algebra.BigOperators.Fin
import Mathlib.Algebra.BigOperators.Intervals
import Mathlib.Data.BitVec
import Mathlib.Data.Nat.ModEq
import Mathlib.Tactic.Ring

/-!
# Arithmetic on limbs

A long number is kept as limbs of `w` bits, the lowest one first. What hardware offers on single limbs is
addition with carry, subtraction with borrow, the product of two limbs as two limbs, and the division of
two limbs by one, which is defined only if the quotient fits. Each has one equation over the natural
numbers, and what a sequence of limbs stands for (`value`) changes with one limb at a time.
-/

namespace Limb

variable {w : Nat}

/-! ## Single limbs -/

def adc (a b : BitVec w) (c : Bool) : BitVec w × Bool :=
  (a + b + BitVec.ofNat w c.toNat, decide (2 ^ w ≤ a.toNat + b.toNat + c.toNat))

/-- The difference of two limbs and a borrow, and the borrow out. -/
def sbb (a b : BitVec w) (c : Bool) : BitVec w × Bool :=
  (a - b - BitVec.ofNat w c.toNat, decide (a.toNat < b.toNat + c.toNat))

/-- The high limb of a product; the low one is `a * b`. -/
def mulHigh (a b : BitVec w) : BitVec w := BitVec.ofNat w (a.toNat * b.toNat / 2 ^ w)

/-- Two limbs divided by one: quotient and remainder, if the quotient fits. -/
def divWide (hi lo d : BitVec w) : Option (BitVec w × BitVec w) :=
  if hi.toNat < d.toNat then
    some (BitVec.ofNat w ((hi.toNat * 2 ^ w + lo.toNat) / d.toNat),
      BitVec.ofNat w ((hi.toNat * 2 ^ w + lo.toNat) % d.toNat))
  else none

section

variable (a b : BitVec w)

theorem toNat_adc (c : Bool) : (adc a b c).1.toNat + 2 ^ w * (adc a b c).2.toNat = a.toNat + b.toNat + c.toNat := by
  have ha := a.isLt
  have hb := b.isLt
  have hc := Bool.toNat_le c
  simp only [adc, BitVec.toNat_add, BitVec.toNat_ofNat, Nat.add_mod_mod, Nat.mod_add_mod]
  by_cases excess : 2 ^ w ≤ a.toNat + b.toNat + c.toNat
  · rw [decide_eq_true excess, Nat.mod_eq_sub_mod excess, Nat.mod_eq_of_lt (by omega), Bool.toNat_true]
    omega
  · rw [decide_eq_false excess, Nat.mod_eq_of_lt (by omega), Bool.toNat_false]
    omega

theorem adc_lt : decide ((adc a b false).1.toNat < a.toNat) = (adc a b false).2 := by
  have sum := toNat_adc a b false
  have bound := b.isLt
  cases carry : (adc a b false).2 with
  | true =>
    rw [carry, Bool.toNat_true, Bool.toNat_false] at sum
    exact decide_eq_true (by omega)
  | false =>
    rw [carry, Bool.toNat_false] at sum
    exact decide_eq_false (by omega)

theorem toNat_sbb (c : Bool) : (sbb a b c).1.toNat + b.toNat + c.toNat = a.toNat + 2 ^ w * (sbb a b c).2.toNat := by
  have ha := a.isLt
  have hb := b.isLt
  have hc := Bool.toNat_le c
  have positive : 0 < 2 ^ w := Nat.two_pow_pos w
  have eq : (sbb a b c).1.toNat = (2 ^ w + a.toNat - (b.toNat + c.toNat)) % 2 ^ w := by
    rw [sbb, sub_sub, BitVec.toNat_sub, BitVec.toNat_add, BitVec.toNat_ofNat, Nat.add_mod_mod]
    by_cases full : b.toNat + c.toNat < 2 ^ w
    · rw [Nat.mod_eq_of_lt full]
      congr 1
      omega
    · have exact : b.toNat + c.toNat = 2 ^ w := by omega
      rw [exact, Nat.mod_self, Nat.sub_zero, Nat.add_sub_cancel_left, Nat.add_mod_left]
  rw [eq]
  by_cases under : a.toNat < b.toNat + c.toNat
  · rw [sbb, decide_eq_true under, Nat.mod_eq_of_lt (by omega), Bool.toNat_true]
    omega
  · rw [sbb, decide_eq_false under, Nat.mod_eq_sub_mod (by omega), Nat.mod_eq_of_lt (by omega), Bool.toNat_false]
    omega

theorem toNat_mulHigh : (mulHigh a b).toNat = a.toNat * b.toNat / 2 ^ w := by
  rw [mulHigh, BitVec.toNat_ofNat, Nat.mod_eq_of_lt]
  exact Nat.div_lt_of_lt_mul (Nat.mul_lt_mul'' a.isLt b.isLt)

theorem toNat_mul : (a * b).toNat + 2 ^ w * (mulHigh a b).toNat = a.toNat * b.toNat := by
  rw [BitVec.toNat_mul, toNat_mulHigh]
  exact Nat.mod_add_div _ _

end

/-- The division of two limbs is exact, and its remainder can be the high limb of the next one. -/
theorem divWide_exact {hi d : BitVec w} (lo : BitVec w) (fits : hi.toNat < d.toNat) :
    ∃ q r, divWide hi lo d = some (q, r) ∧ hi.toNat * 2 ^ w + lo.toNat = q.toNat * d.toNat + r.toNat ∧
      r.toNat < d.toNat := by
  have positive : 0 < d.toNat := Nat.zero_lt_of_lt fits
  have quotient : (hi.toNat * 2 ^ w + lo.toNat) / d.toNat < 2 ^ w := by
    rw [Nat.div_lt_iff_lt_mul positive]
    have := lo.isLt
    calc hi.toNat * 2 ^ w + lo.toNat < (hi.toNat + 1) * 2 ^ w := by rw [Nat.add_mul, Nat.one_mul]; omega
      _ ≤ d.toNat * 2 ^ w := Nat.mul_le_mul_right _ fits
      _ = 2 ^ w * d.toNat := Nat.mul_comm _ _
  have remainder : (hi.toNat * 2 ^ w + lo.toNat) % d.toNat < 2 ^ w :=
    Nat.lt_trans (Nat.mod_lt _ positive) d.isLt
  refine ⟨_, _, if_pos fits, ?_, ?_⟩
  · rw [BitVec.toNat_ofNat, BitVec.toNat_ofNat, Nat.mod_eq_of_lt quotient, Nat.mod_eq_of_lt remainder]
    exact (Nat.div_add_mod' _ _).symm
  · rw [BitVec.toNat_ofNat, Nat.mod_eq_of_lt remainder]
    exact Nat.mod_lt _ positive

/-! ## Columns

The limbs of one weight are added into one limb, and the carries out of it are counted in another. -/

def count (column : BitVec w × BitVec w) (term : BitVec w) : BitVec w × BitVec w :=
  ((adc column.1 term false).1, column.2 + BitVec.ofNat w (adc column.1 term false).2.toNat)

def column (start : BitVec w) (terms : List (BitVec w)) : BitVec w × BitVec w := terms.foldl count (start, 0)

theorem foldl_count (terms : List (BitVec w)) (s c : BitVec w) (room : c.toNat + terms.length < 2 ^ w) :
    (terms.foldl count (s, c)).1.toNat + 2 ^ w * (terms.foldl count (s, c)).2.toNat =
      s.toNat + 2 ^ w * c.toNat + (terms.map BitVec.toNat).sum := by
  induction terms generalizing s c with
  | nil => rfl
  | cons term terms ih =>
    have step := toNat_adc s term false
    have bit := Bool.toNat_le (adc s term false).2
    rw [List.length_cons] at room
    have counted : (c + BitVec.ofNat w (adc s term false).2.toNat).toNat = c.toNat + (adc s term false).2.toNat := by
      rw [BitVec.toNat_add, BitVec.toNat_ofNat, Nat.add_mod_mod, Nat.mod_eq_of_lt (by omega)]
    rw [List.foldl_cons, count, ih _ _ (by rw [counted]; omega), List.map_cons, List.sum_cons]
    rw [Bool.toNat_false, Nat.add_zero] at step
    dsimp only
    rw [counted, Nat.mul_add]
    omega

theorem toNat_column (start : BitVec w) (terms : List (BitVec w)) (room : terms.length < 2 ^ w) :
    (column start terms).1.toNat + 2 ^ w * (column start terms).2.toNat =
      start.toNat + (terms.map BitVec.toNat).sum := by
  have zero : (0 : BitVec w).toNat = 0 := BitVec.toNat_zero
  have sum := foldl_count terms start 0 (by rwa [zero, Nat.zero_add])
  rwa [zero, Nat.mul_zero, Nat.add_zero] at sum

/-! ## Sequences of limbs -/

def quad {α : Type*} (x0 x1 x2 x3 : α) : Nat → α
  | 0 => x0
  | 1 => x1
  | 2 => x2
  | _ => x3

def value (n : Nat) (x : Nat → BitVec w) : Nat := ∑ i ∈ Finset.range n, (x i).toNat * 2 ^ (w * i)

theorem value_congr {n : Nat} {x y : Nat → BitVec w} (h : ∀ i < n, x i = y i) : value n x = value n y :=
  Finset.sum_congr rfl fun i mem => congrArg (fun v => v.toNat * 2 ^ (w * i)) (h i (Finset.mem_range.mp mem))

theorem value_zero (x : Nat → BitVec w) : value 0 x = 0 := Finset.sum_range_zero _

theorem value_succ (n : Nat) (x : Nat → BitVec w) :
    value (n + 1) x = value n x + (x n).toNat * 2 ^ (w * n) := Finset.sum_range_succ _ n

theorem value_four (x : Nat → BitVec 64) :
    value 4 x = (x 0).toNat + 2 ^ 64 * (x 1).toNat + 2 ^ 128 * (x 2).toNat + 2 ^ 192 * (x 3).toNat := by
  simp only [value_succ, value_zero]
  omega

theorem value_update {n i : Nat} (inside : i < n) (x : Nat → BitVec w) (v : BitVec w) :
    value n (Function.update x i v) + (x i).toNat * 2 ^ (w * i) = value n x + v.toNat * 2 ^ (w * i) := by
  induction n with
  | zero => exact absurd inside (Nat.not_lt_zero i)
  | succ n ih =>
    rw [value_succ, value_succ]
    by_cases last : i = n
    · have below : value n (Function.update x i v) = value n x := by
        refine value_congr fun j lt => ?_
        rw [Function.update_of_ne (by omega)]
      rw [below, ← last, Function.update_self]
      omega
    · have before := ih (by omega)
      rw [Function.update_of_ne (Ne.symm last)]
      omega

theorem value_lt (n : Nat) (x : Nat → BitVec w) : value n x < 2 ^ (w * n) := by
  induction n with
  | zero => rw [value_zero]; exact Nat.two_pow_pos _
  | succ n ih =>
    rw [value_succ, Nat.mul_succ, Nat.pow_add]
    have top : (x n).toNat * 2 ^ (w * n) ≤ (2 ^ w - 1) * 2 ^ (w * n) :=
      Nat.mul_le_mul_right _ (Nat.le_sub_one_of_lt (x n).isLt)
    have split : (2 ^ w - 1) * 2 ^ (w * n) + 2 ^ (w * n) = 2 ^ (w * n) * 2 ^ w := by
      rw [← Nat.succ_mul, Nat.succ_eq_add_one, Nat.sub_add_cancel (Nat.two_pow_pos w), Nat.mul_comm]
    omega

end Limb
