import Dtvm.Jit.RuntimeStack
import Dtvm.Word.Limbs

/-!
# Operands of the builder

`EVMMirBuilder` compiles an opcode by building MIR instructions on 64-bit limbs. Building an instruction and
executing it are one step here: an instruction is the value that it has in a run. Addition and subtraction leave a
carry, which the instruction of the next limb takes; a division whose quotient does not fit ends the run (`Build`).

What stands for a word of the stack is an `Operand`: a constant, four instructions with a range that the word is
known to lie in, or a computation that is put off. `Operand.word` is the word, `Operand.Sound` says that the range
is right.
-/

namespace Dtvm.Jit.Mir

open Limb

/-! ## Instructions -/

/-- An instruction: a constant of the builder, or any other, with its value. -/
inductive Inst where
  | const (v : BitVec 64)
  | run (v : BitVec 64)
deriving DecidableEq

def Inst.val : Inst → BitVec 64
  | .const v => v
  | .run v => v

@[simp] theorem Inst.val_const (v : BitVec 64) : (Inst.const v).val = v := rfl

@[simp] theorem Inst.val_run (v : BitVec 64) : (Inst.run v).val = v := rfl

abbrev U256Inst := Nat → Inst

def word (x : U256Inst) : Word := ofLimbs fun i => (x i).val

abbrev Build := StateT Bool Option

/-- A run that ends, whatever carry it begins with, and what holds of its result. -/
def Gives {α : Type} (p : Build α) (Q : α → Prop) : Prop := ∀ carry, ∃ a carry', p carry = some (a, carry') ∧ Q a

theorem Gives.pure {α : Type} {a : α} {Q : α → Prop} (h : Q a) : Gives (Pure.pure a) Q :=
  fun carry => ⟨a, carry, rfl, h⟩

theorem Gives.bind {α β : Type} {p : Build α} {f : α → Build β} {Q : α → Prop} {R : β → Prop} (h : Gives p Q)
    (rest : ∀ a, Q a → Gives (f a) R) : Gives (p >>= f) R := by
  intro carry
  obtain ⟨a, carry', run, holds⟩ := h carry
  obtain ⟨b, carry'', run', holds'⟩ := rest a holds carry'
  refine ⟨b, carry'', ?_, holds'⟩
  show (p carry >>= fun x => f x.1 x.2) = _
  rw [run]
  exact run'

theorem Gives.mono {α : Type} {p : Build α} {Q R : α → Prop} (h : Gives p Q) (imp : ∀ a, Q a → R a) : Gives p R := by
  intro carry
  obtain ⟨a, carry', run, holds⟩ := h carry
  exact ⟨a, carry', run, imp a holds⟩

/-- `createIntConstInstruction`. -/
def int (v : BitVec 64) : Inst := .const v

/-- `protectUnsafeValue`: the value is computed here and kept in a variable. -/
def protectUnsafeValue (i : Inst) : Inst := .run i.val

def or (a b : Inst) : Inst := .run (a.val ||| b.val)

def and (a b : Inst) : Inst := .run (a.val &&& b.val)

def xor (a b : Inst) : Inst := .run (a.val ^^^ b.val)

/-- `NotInstruction`. -/
def not (a : Inst) : Inst := .run (~~~a.val)

/-- `OP_shl`: the count is taken modulo 64. -/
def shl (a b : Inst) : Inst := .run (a.val <<< (b.val.toNat % 64))

def ushr (a b : Inst) : Inst := .run (a.val >>> (b.val.toNat % 64))

inductive Predicate where
  | eq | ne | ult | ule | ugt | uge | slt | sgt
deriving DecidableEq

def Predicate.holds : Predicate → BitVec 64 → BitVec 64 → Bool
  | .eq, a, b => a == b
  | .ne, a, b => a != b
  | .ult, a, b => a.ult b
  | .ule, a, b => a.ule b
  | .ugt, a, b => b.ult a
  | .uge, a, b => b.ule a
  | .slt, a, b => a.slt b
  | .sgt, a, b => b.slt a

/-- `CmpInstruction`, with a result of 64 bits. -/
def cmp (p : Predicate) (a b : Inst) : Inst := .run (if p.holds a.val b.val then 1 else 0)

theorem toNat_cmp (p : Predicate) (a b : Inst) : (cmp p a b).val.toNat = (p.holds a.val b.val).toNat := by
  rw [cmp, Inst.val_run]
  cases p.holds a.val b.val <;> rfl

/-- `SelectInstruction`. -/
def select (c a b : Inst) : Inst := .run (if c.val = 0 then b.val else a.val)

/-- `OP_evm_umul128_lo`. -/
def umul128 (a b : Inst) : Inst := .run (a.val * b.val)

/-- `EvmUmul128HiInstruction`, of the product of two instructions. -/
def umul128Hi (a b : Inst) : Inst := .run (mulHigh a.val b.val)

def addWith (carry : Bool) (a b : Inst) : Build Inst := fun _ =>
  some (.run (adc a.val b.val carry).1, (adc a.val b.val carry).2)

def add (a b : Inst) : Build Inst := addWith false a b

/-- `AdcInstruction`. -/
def adcInst (a b : Inst) : Build Inst := fun carry => addWith carry a b carry

def subWith (borrow : Bool) (a b : Inst) : Build Inst := fun _ =>
  some (.run (sbb a.val b.val borrow).1, (sbb a.val b.val borrow).2)

def sub (a b : Inst) : Build Inst := subWith false a b

/-- `SbbInstruction`. -/
def sbbInst (a b : Inst) : Build Inst := fun borrow => subWith borrow a b borrow

/-- `OP_evm_udiv128_by64` and its remainder: a fault unless the quotient fits. -/
def udiv128By64 (hi lo divisor : Inst) : Build (Inst × Inst) := fun carry =>
  (divWide hi.val lo.val divisor.val).map fun x => ((.run x.1, .run x.2), carry)

/-- `OP_udiv`: a fault if the divisor is zero. -/
def udiv (a b : Inst) : Build Inst := do
  let x ← udiv128By64 (int 0) a b
  pure x.1

def urem (a b : Inst) : Build Inst := do
  let x ← udiv128By64 (int 0) a b
  pure x.2

/-! ## Operands -/

inductive ValueRange where
  | u64 | u128 | u256
deriving DecidableEq

def ValueRange.limbs : ValueRange → Nat
  | .u64 => 1
  | .u128 => 2
  | .u256 => 4

def ValueRange.min (a b : ValueRange) : ValueRange := if b.limbs < a.limbs then b else a

/-- `Operand`. A word of 32 bytes in memory is given by the limbs that loading it yields. -/
inductive Operand where
  | const (value : Nat → BitVec 64)
  | insts (limbs : U256Inst) (range : ValueRange)
  | bitwiseNot (base : U256Inst)
  | zeroTest (base : U256Inst) (isNegated : Bool)
  | bytes32 (limbs : Nat → BitVec 64)
  | uint64 (i : Inst)

def handleCompareEQZ (x : U256Inst) (isNegated : Bool) : U256Inst :=
  let folded := or (or (or (x 0) (x 1)) (x 2)) (x 3)
  quad (protectUnsafeValue (cmp (if isNegated then .ne else .eq) folded (int 0))) (int 0) (int 0) (int 0)

def extractU256Operand : Operand → U256Inst
  | .const value => fun i => int (value i)
  | .insts limbs _ => limbs
  | .bitwiseNot base => fun i => protectUnsafeValue (not (base i))
  | .zeroTest base isNegated => handleCompareEQZ base isNegated
  | .bytes32 limbs => fun i => .run (limbs i)
  | .uint64 i => quad i (int 0) (int 0) (int 0)

namespace Operand

/-- An operand of four instructions, of which nothing is known. -/
def full (x : U256Inst) : Operand := .insts x .u256

/-- `intxToU256Value`. -/
def ofWord (w : Word) : Operand := .const (limb w)

def isConstant : Operand → Bool
  | .const _ => true
  | _ => false

/-- `isConstU64`, with the limb. -/
def constU64 : Operand → Option (BitVec 64)
  | .const v => if v 1 = 0 ∧ v 2 = 0 ∧ v 3 = 0 then some (v 0) else none
  | _ => none

def isZeroConstant : Operand → Bool
  | .const v => v 0 == 0 && v 1 == 0 && v 2 == 0 && v 3 == 0
  | _ => false

def isOneConstant : Operand → Bool
  | .const v => v 0 == 1 && v 1 == 0 && v 2 == 0 && v 3 == 0
  | _ => false

def isAllOnesConstant : Operand → Bool
  | .const v => v 0 == -1 && v 1 == -1 && v 2 == -1 && v 3 == -1
  | _ => false

def getRange : Operand → ValueRange
  | .const v =>
    if v 1 = 0 ∧ v 2 = 0 ∧ v 3 = 0 then .u64
    else if v 2 = 0 ∧ v 3 = 0 then .u128
    else .u256
  | .insts _ range => range
  | _ => .u256

def bothFitU64 (a b : Operand) : Bool := a.getRange == .u64 && b.getRange == .u64

def word (a : Operand) : Word := Mir.word (extractU256Operand a)

def Sound (a : Operand) : Prop := ∀ i < 4, a.getRange.limbs ≤ i → (extractU256Operand a i).val = 0

end Operand

def handleNot : Operand → Operand
  | .const v => .const fun i => ~~~v i
  | .bitwiseNot base => .full base
  | a => .bitwiseNot (extractU256Operand a)

/-! ## Words -/

def vals (x : U256Inst) : Nat → BitVec 64 := fun i => (x i).val

theorem toNat_word (x : U256Inst) : (word x).toNat = value 4 (vals x) := by
  rw [word, toNat_ofLimbs, value_four]
  rfl

theorem word_eq_iff {x : U256Inst} {w : Word} : word x = w ↔ ∀ i < 4, (x i).val = limb w i := ofLimbs_eq_iff

theorem word_congr {x y : U256Inst} (h : ∀ i < 4, (x i).val = (y i).val) : word x = word y :=
  word_eq_iff.mpr fun i inside => (h i inside).trans (limb_ofLimbs (fun i => (y i).val) inside).symm

theorem limb_word (x : U256Inst) {i : Nat} (inside : i < 4) : limb (word x) i = (x i).val :=
  limb_ofLimbs (fun i => (x i).val) inside

@[simp] theorem word_full (x : U256Inst) : (Operand.full x).word = word x := rfl

@[simp] theorem word_insts (x : U256Inst) (range : ValueRange) : (Operand.insts x range).word = word x := rfl

@[simp] theorem word_ofWord (w : Word) : (Operand.ofWord w).word = w := ofLimbs_limb w

theorem word_const (v : Nat → BitVec 64) : (Operand.const v).word = ofLimbs v := rfl

theorem toNat_word_one {x : U256Inst} (h1 : (x 1).val = 0) (h2 : (x 2).val = 0) (h3 : (x 3).val = 0) :
    (word x).toNat = (x 0).val.toNat := by
  rw [toNat_word, value_four]
  simp only [vals, h1, h2, h3]
  rfl

theorem getLsbD_word (x : U256Inst) {k : Nat} (inside : k < 256) :
    (word x).getLsbD k = (x (k / 64)).val.getLsbD (k % 64) := by
  rw [← limb_word x (by omega : k / 64 < 4), limb, BitVec.getLsbD_extractLsb',
    decide_eq_true (Nat.mod_lt k (by decide)), Bool.true_and, Nat.div_add_mod]

theorem word_bitwise {f : Bool → Bool → Bool} {g : Word → Word → Word} {h : BitVec 64 → BitVec 64 → BitVec 64}
    (wide : ∀ a b k, k < 256 → (g a b).getLsbD k = f (a.getLsbD k) (b.getLsbD k))
    (narrow : ∀ a b k, k < 64 → (h a b).getLsbD k = f (a.getLsbD k) (b.getLsbD k)) {x y z : U256Inst}
    (limbs : ∀ i < 4, (z i).val = h (x i).val (y i).val) : word z = g (word x) (word y) := by
  refine BitVec.eq_of_getLsbD_eq fun k inside => ?_
  have limb_lt : k / 64 < 4 := by omega
  have bit_lt : k % 64 < 64 := Nat.mod_lt k (by decide)
  rw [wide _ _ k inside, getLsbD_word z inside, limbs _ limb_lt, narrow _ _ _ bit_lt, getLsbD_word x inside,
    getLsbD_word y inside]

theorem word_not {x z : U256Inst} (limbs : ∀ i < 4, (z i).val = ~~~(x i).val) : word z = ~~~word x := by
  refine word_bitwise (f := fun a _ => !a) (g := fun a _ => ~~~a) (h := fun a _ => ~~~a) (y := x) ?_ ?_ limbs
  · intro a _ k inside
    rw [BitVec.getLsbD_not, decide_eq_true inside, Bool.true_and]
  · intro a _ k inside
    rw [BitVec.getLsbD_not, decide_eq_true inside, Bool.true_and]

theorem word_select (c : Inst) (x y : U256Inst) :
    word (fun i => select c (x i) (y i)) = if c.val = 0 then word y else word x := by
  split
  · next h => exact word_congr fun i _ => if_pos h
  · next h => exact word_congr fun i _ => if_neg h

@[simp] theorem handleNot_word (a : Operand) : (handleNot a).word = ~~~a.word := by
  cases a with
  | bitwiseNot base =>
    refine (BitVec.not_not).symm.trans (congrArg (~~~ ·) ?_)
    exact (word_not fun _ _ => rfl).symm
  | _ => exact word_not fun _ _ => rfl

/-! ## Sound ranges -/

namespace Operand

theorem sound_full (x : U256Inst) : (full x).Sound := fun _ inside no => absurd no (Nat.not_le_of_lt inside)

theorem sound_one (i : Inst) : (insts (quad i (int 0) (int 0) (int 0)) .u64).Sound := by
  intro k inside beyond
  replace beyond : 1 ≤ k := beyond
  match k, inside with
  | 0, _ => exact absurd beyond (by decide)
  | 1, _ | 2, _ | 3, _ => rfl

theorem sound_two (i j : Inst) : (insts (quad i j (int 0) (int 0)) .u128).Sound := by
  intro k inside beyond
  replace beyond : 2 ≤ k := beyond
  match k, inside with
  | 0, _ | 1, _ => exact absurd beyond (by decide)
  | 2, _ | 3, _ => rfl

theorem sound_const (v : Nat → BitVec 64) : (const v).Sound := by
  intro k inside beyond
  show v k = 0
  rw [getRange] at beyond
  split at beyond
  · next h =>
    match k, inside with
    | 0, _ => exact absurd beyond (by decide)
    | 1, _ => exact h.1
    | 2, _ => exact h.2.1
    | 3, _ => exact h.2.2
  · split at beyond
    · next h =>
      match k, inside with
      | 0, _ | 1, _ => exact absurd beyond (by decide)
      | 2, _ => exact h.1
      | 3, _ => exact h.2
    · exact absurd beyond (Nat.not_le_of_lt inside)

theorem sound_ofWord (w : Word) : (ofWord w).Sound := sound_const _

theorem sound_of_u256 {a : Operand} (h : a.getRange = .u256) : a.Sound := by
  intro k inside beyond
  rw [h] at beyond
  exact absurd beyond (Nat.not_le_of_lt inside)

theorem sound_not (a : Operand) : (handleNot a).Sound := by
  cases a with
  | const v => exact sound_const _
  | bitwiseNot base => exact sound_full base
  | _ => exact sound_of_u256 rfl

theorem Sound.high {a : Operand} (h : a.Sound) (one : a.getRange = .u64) {i : Nat} (positive : 0 < i) (inside : i < 4) :
    (extractU256Operand a i).val = 0 := by
  refine h i inside ?_
  rw [one]
  exact positive

theorem Sound.toNat_word {a : Operand} (h : a.Sound) (one : a.getRange = .u64) :
    a.word.toNat = (extractU256Operand a 0).val.toNat :=
  toNat_word_one (h.high one (by decide) (by decide)) (h.high one (by decide) (by decide))
    (h.high one (by decide) (by decide))

theorem word_zeroConstant {a : Operand} (h : a.isZeroConstant = true) : a.word = 0 := by
  cases a with
  | const v =>
    simp only [isZeroConstant, Bool.and_eq_true, beq_iff_eq] at h
    refine word_eq_iff.mpr fun i inside => ?_
    have zero : limb (0 : Word) i = 0 := by
      rw [limb]
      exact BitVec.extractLsb'_zero
    rw [zero]
    rcases i with _ | _ | _ | _ | i
    · exact h.1.1.1
    · exact h.1.1.2
    · exact h.1.2
    · exact h.2
    · omega
  | _ => exact absurd h Bool.false_ne_true

end Operand

theorem word_one (i : Inst) : word (quad i (int 0) (int 0) (int 0)) = i.val.setWidth 256 := by
  apply BitVec.eq_of_toNat_eq
  have := i.val.isLt
  rw [toNat_word_one rfl rfl rfl, BitVec.toNat_setWidth, Nat.mod_eq_of_lt (by omega)]
  rfl

theorem Operand.word_constU64 {a : Operand} {c : BitVec 64} (h : a.constU64 = some c) : a.word = c.setWidth 256 := by
  cases a with
  | const v =>
    rw [constU64] at h
    split at h
    · next high =>
      cases h
      refine Eq.trans (word_congr fun i inside => ?_) (word_one (int (v 0)))
      match i, inside with
      | 0, _ => rfl
      | 1, _ => exact high.1
      | 2, _ => exact high.2.1
      | 3, _ => exact high.2.2
    · exact absurd h (by simp)
  | _ => exact absurd h (by simp [constU64])

end Dtvm.Jit.Mir
