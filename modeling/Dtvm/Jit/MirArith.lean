import Dtvm.Jit.Mir
import Dtvm.Jit.MulLowering

/-!
# Addition, subtraction and multiplication

`handleBinaryArithmetic` and `handleMul` fold constants, take short ways for operands of one limb, and
otherwise build a chain of additions with carry, or one instruction for the product of four limbs by four,
whose meaning is that of the machine code selected for it (`MulCode`).
-/

namespace Dtvm.Jit.Mir

open Limb

/-! ## Addition and subtraction -/

def addChain (x y : U256Inst) : Build U256Inst := do
  let r0 ← add (x 0) (y 0)
  let r1 ← adcInst (x 1) (y 1)
  let r2 ← adcInst (x 2) (y 2)
  let r3 ← adcInst (x 3) (y 3)
  pure (quad r0 r1 r2 r3)

def subChain (x y : U256Inst) : Build U256Inst := do
  let r0 ← sub (x 0) (y 0)
  let r1 ← sbbInst (x 1) (y 1)
  let r2 ← sbbInst (x 2) (y 2)
  let r3 ← sbbInst (x 3) (y 3)
  pure (quad r0 r1 r2 r3)

def handleAddU64Const (full : Operand) (c : BitVec 64) : Build Operand := do
  let r ← addChain (fun i => protectUnsafeValue (extractU256Operand full i)) (quad (int c) (int 0) (int 0) (int 0))
  pure (.full r)

/-- `handleSubU64Const`: the borrows are compared out. -/
def handleSubU64Const (full : Operand) (c : BitVec 64) : Build Operand := do
  let x := extractU256Operand full
  let r0 ← sub (x 0) (int c)
  let b1 := cmp .ult (x 0) (int c)
  let r1 ← sub (x 1) b1
  let b2 := cmp .ult (x 1) b1
  let r2 ← sub (x 2) b2
  let b3 := cmp .ult (x 2) b2
  let r3 ← sub (x 3) b3
  pure (.full (quad r0 r1 r2 r3))

/-- `handleBinaryArithmetic<BO_ADD>`. -/
def handleAdd (l r : Operand) : Build Operand :=
  match l, r with
  | .const a, .const b => pure (.ofWord (ofLimbs a + ofLimbs b))
  | l, r =>
    if l.isZeroConstant then pure r
    else if r.isZeroConstant then pure l
    else if l.bothFitU64 r && !l.isConstant && !r.isConstant then do
      let x := extractU256Operand l
      let y := extractU256Operand r
      let sum ← add (x 0) (y 0)
      let carry := cmp .ult (protectUnsafeValue sum) (x 0)
      pure (.insts (quad (protectUnsafeValue sum) carry (int 0) (int 0)) .u128)
    else match l.constU64, r.constU64 with
      | some c, _ => handleAddU64Const r c
      | none, some c => handleAddU64Const l c
      | none, none => do
        let z ← addChain (fun i => protectUnsafeValue (extractU256Operand l i))
          (fun i => protectUnsafeValue (extractU256Operand r i))
        pure (.full z)

/-- `handleBinaryArithmetic<BO_SUB>`. -/
def handleSub (l r : Operand) : Build Operand :=
  match l, r with
  | .const a, .const b => pure (.ofWord (ofLimbs a - ofLimbs b))
  | l, r =>
    if r.isZeroConstant then pure l
    else match r.constU64 with
      | some c => handleSubU64Const l c
      | none => do
        let z ← subChain (fun i => protectUnsafeValue (extractU256Operand l i))
          (fun i => protectUnsafeValue (extractU256Operand r i))
        pure (.full z)

theorem word_add_of_value {x y z : U256Inst} (excess : Nat)
    (sum : value 4 (vals x) + value 4 (vals y) = value 4 (vals z) + 2 ^ 256 * excess) : word x + word y = word z := by
  apply BitVec.eq_of_toNat_eq
  rw [BitVec.toNat_add, toNat_word, toNat_word, toNat_word, sum, Nat.add_mul_mod_self_left,
    Nat.mod_eq_of_lt (value_lt 4 _)]

theorem addChain_gives (x y : U256Inst) : Gives (addChain x y) fun z => word z = word x + word y := by
  intro carry
  have s0 := toNat_adc (x 0).val (y 0).val false
  generalize e0 : adc (x 0).val (y 0).val false = r0 at s0
  have s1 := toNat_adc (x 1).val (y 1).val r0.2
  generalize e1 : adc (x 1).val (y 1).val r0.2 = r1 at s1
  have s2 := toNat_adc (x 2).val (y 2).val r1.2
  generalize e2 : adc (x 2).val (y 2).val r1.2 = r2 at s2
  have s3 := toNat_adc (x 3).val (y 3).val r2.2
  generalize e3 : adc (x 3).val (y 3).val r2.2 = r3 at s3
  refine ⟨quad (.run r0.1) (.run r1.1) (.run r2.1) (.run r3.1), r3.2, ?_, ?_⟩
  · subst e3 e2 e1 e0
    rfl
  · refine (word_add_of_value r3.2.toNat ?_).symm
    simp only [value_four, vals, quad, Inst.val_run]
    rw [Bool.toNat_false, Nat.add_zero] at s0
    linear_combination s0.symm + 2 ^ 64 * s1.symm + 2 ^ 128 * s2.symm + 2 ^ 192 * s3.symm

theorem subChain_gives (x y : U256Inst) : Gives (subChain x y) fun z => word z = word x - word y := by
  intro carry
  have s0 := toNat_sbb (x 0).val (y 0).val false
  generalize e0 : sbb (x 0).val (y 0).val false = r0 at s0
  have s1 := toNat_sbb (x 1).val (y 1).val r0.2
  generalize e1 : sbb (x 1).val (y 1).val r0.2 = r1 at s1
  have s2 := toNat_sbb (x 2).val (y 2).val r1.2
  generalize e2 : sbb (x 2).val (y 2).val r1.2 = r2 at s2
  have s3 := toNat_sbb (x 3).val (y 3).val r2.2
  generalize e3 : sbb (x 3).val (y 3).val r2.2 = r3 at s3
  refine ⟨quad (.run r0.1) (.run r1.1) (.run r2.1) (.run r3.1), r3.2, ?_, ?_⟩
  · subst e3 e2 e1 e0
    rfl
  · refine eq_sub_of_add_eq (word_add_of_value r3.2.toNat ?_)
    simp only [value_four, vals, quad, Inst.val_run]
    rw [Bool.toNat_false, Nat.add_zero] at s0
    linear_combination s0 + 2 ^ 64 * s1 + 2 ^ 128 * s2 + 2 ^ 192 * s3

theorem handleAddU64Const_gives (a : Operand) (c : BitVec 64) :
    Gives (handleAddU64Const a c) fun z => z.word = a.word + c.setWidth 256 ∧ z.Sound := by
  refine (addChain_gives _ _).bind fun r sum => .pure ⟨?_, Operand.sound_full r⟩
  rw [word_one] at sum
  exact sum

theorem toNat_cmp_ult (a b : Inst) : (cmp .ult a b).val.toNat = (sbb a.val b.val false).2.toNat := by
  exact toNat_cmp .ult a b

theorem handleSubU64Const_gives (a : Operand) (c : BitVec 64) :
    Gives (handleSubU64Const a c) fun z => z.word = a.word - c.setWidth 256 ∧ z.Sound := by
  intro carry
  rw [handleSubU64Const]
  generalize ex : extractU256Operand a = x
  have s0 := toNat_sbb (x 0).val c false
  have b1 := toNat_cmp_ult (x 0) (int c)
  generalize eb1 : cmp .ult (x 0) (int c) = i1 at b1
  have s1 := toNat_sbb (x 1).val i1.val false
  have b2 := toNat_cmp_ult (x 1) i1
  generalize eb2 : cmp .ult (x 1) i1 = i2 at b2
  have s2 := toNat_sbb (x 2).val i2.val false
  have b3 := toNat_cmp_ult (x 2) i2
  generalize eb3 : cmp .ult (x 2) i2 = i3 at b3
  have s3 := toNat_sbb (x 3).val i3.val false
  refine ⟨.full (quad (.run (sbb (x 0).val c false).1) (.run (sbb (x 1).val i1.val false).1)
    (.run (sbb (x 2).val i2.val false).1) (.run (sbb (x 3).val i3.val false).1)),
    (sbb (x 3).val i3.val false).2, ?_, ?_, Operand.sound_full _⟩
  · subst eb3 eb2 eb1
    rfl
  · rw [word_full, show c.setWidth 256 = word (quad (int c) (int 0) (int 0) (int 0)) from (word_one (int c)).symm]
    refine eq_sub_of_add_eq ((word_add_of_value (sbb (x 3).val i3.val false).2.toNat ?_).trans (congrArg word ex.symm))
    simp only [Bool.toNat_false, Nat.add_zero, int, Inst.val_const] at s0 s1 s2 s3 b1
    simp only [value_four, vals, quad, int, Inst.val_run, Inst.val_const]
    have zero : (0 : BitVec 64).toNat = 0 := rfl
    rw [zero]
    rw [b1] at s1
    rw [b2] at s2
    rw [b3] at s3
    linear_combination s0 + 2 ^ 64 * s1 + 2 ^ 128 * s2 + 2 ^ 192 * s3

theorem addU64_gives {l r : Operand} (hl : l.Sound) (hr : r.Sound) (both : l.bothFitU64 r = true) :
    Gives (do
        let sum ← add (extractU256Operand l 0) (extractU256Operand r 0)
        pure (.insts (quad (protectUnsafeValue sum) (cmp .ult (protectUnsafeValue sum) (extractU256Operand l 0)) (int 0)
          (int 0)) .u128)) fun z : Operand => z.word = l.word + r.word ∧ z.Sound := by
  simp only [Operand.bothFitU64, Bool.and_eq_true, beq_iff_eq] at both
  have left := hl.toNat_word both.1
  have right := hr.toNat_word both.2
  generalize extractU256Operand l 0 = x at *
  generalize extractU256Operand r 0 = y at *
  intro carry
  refine ⟨_, _, rfl, ?_, Operand.sound_two _ _⟩
  have sum := toNat_adc x.val y.val false
  have excess : (cmp .ult (.run (adc x.val y.val false).1) x).val.toNat = (adc x.val y.val false).2.toNat :=
    (toNat_cmp _ _ _).trans (congrArg Bool.toNat (adc_lt x.val y.val))
  apply BitVec.eq_of_toNat_eq
  have total : (l.word + r.word).toNat = x.val.toNat + y.val.toNat := by
    have := x.val.isLt
    have := y.val.isLt
    rw [BitVec.toNat_add, left, right, Nat.mod_eq_of_lt (by omega)]
  rw [total, word_insts, toNat_word, value_four]
  simp only [vals, quad, protectUnsafeValue, int, Inst.val_run, Inst.val_const] at excess ⊢
  rw [excess, show (0 : BitVec 64).toNat = 0 from rfl]
  rw [Bool.toNat_false] at sum
  omega

/-- **Addition is exact**, and its range is sound. -/
theorem handleAdd_gives {l r : Operand} (hl : l.Sound) (hr : r.Sound) :
    Gives (handleAdd l r) fun z => z.word = l.word + r.word ∧ z.Sound := by
  unfold handleAdd
  split
  · exact .pure ⟨word_ofWord _, Operand.sound_ofWord _⟩
  · split
    · next none =>
      refine .pure ⟨?_, hr⟩
      rw [Operand.word_zeroConstant none]
      exact (BitVec.zero_add _).symm
    · split
      · next none =>
        refine .pure ⟨?_, hl⟩
        rw [Operand.word_zeroConstant none]
        exact (BitVec.add_zero _).symm
      · split
        · next both =>
          rw [Bool.and_eq_true, Bool.and_eq_true] at both
          exact addU64_gives hl hr both.1.1
        · cases left : l.constU64 with
          | some c =>
            refine (handleAddU64Const_gives r c).mono fun z h => ⟨?_, h.2⟩
            rw [h.1, Operand.word_constU64 left, BitVec.add_comm]
          | none =>
            cases right : r.constU64 with
            | some c =>
              rw [Operand.word_constU64 right]
              exact handleAddU64Const_gives l c
            | none => exact (addChain_gives _ _).bind fun z sum => .pure ⟨sum, Operand.sound_full z⟩

/-- **Subtraction is exact.** -/
theorem handleSub_gives (l r : Operand) :
    Gives (handleSub l r) fun z => z.word = l.word - r.word ∧ (l.Sound → z.Sound) := by
  unfold handleSub
  split
  · exact .pure ⟨word_ofWord _, fun _ => Operand.sound_ofWord _⟩
  · split
    · next none =>
      refine .pure ⟨?_, id⟩
      rw [Operand.word_zeroConstant none]
      exact (BitVec.sub_zero _).symm
    · split
      · next c known =>
        rw [Operand.word_constU64 known]
        exact (handleSubU64Const_gives _ c).mono fun z h => ⟨h.1, fun _ => h.2⟩
      · exact (subChain_gives _ _).bind fun z sum => .pure ⟨sum, fun _ => Operand.sound_full z⟩

/-! ## Multiplication -/

def addTermWithCarry (sum carry term : Inst) : Build (Inst × Inst) := do
  let newSum ← add sum term
  let newCarry ← adcInst carry (int 0)
  pure (protectUnsafeValue newSum, protectUnsafeValue newCarry)

def addTermNoCarry (sum term : Inst) : Build Inst := do
  let newSum ← add sum term
  pure (protectUnsafeValue newSum)

def mulU64Const (x : U256Inst) (b : Inst) : Build U256Inst := do
  let (r1, c1) ← addTermWithCarry (umul128Hi (x 0) b) (int 0) (umul128 (x 1) b)
  let (s1, c2) ← addTermWithCarry (umul128Hi (x 1) b) (int 0) (umul128 (x 2) b)
  let (r2, c2) ← addTermWithCarry s1 c2 c1
  let r3 ← addTermNoCarry (umul128Hi (x 2) b) (umul128 (x 3) b)
  let r3 ← addTermNoCarry r3 c2
  pure (quad (umul128 (x 0) b) r1 r2 r3)

/-- The meaning of `EvmU256MulInstruction`: a product that machine code selected for it computes, from
registers that hold the operands. -/
structure MulCode where
  product : (Nat → BitVec 64) → (Nat → BitVec 64) → Nat → BitVec 64
  selected : ∀ x y, ∃ (hasBMI2 hasADX : Bool) (c : X86.Cpu) (a b r : Nat → Nat) (c' : X86.Cpu),
    (∀ i < 4, c.Has (a i) (x i)) ∧ (∀ i < 4, c.Has (b i) (y i)) ∧
      X86.lowerEvmU256MulExpr hasBMI2 hasADX a b c = some (r, c') ∧ ∀ i < 4, product x y i = c'.regs (r i)

def handleMul (code : MulCode) (a b : Operand) : Build Operand :=
  match a, b with
  | .const x, .const y => pure (.ofWord (ofLimbs x * ofLimbs y))
  | a, b =>
    if a.isZeroConstant || b.isZeroConstant then pure (.ofWord 0)
    else if a.isOneConstant then pure b
    else if b.isOneConstant then pure a
    else if a.bothFitU64 b && !a.isConstant && !b.isConstant then
      let x := extractU256Operand a
      let y := extractU256Operand b
      pure (.insts (quad (umul128 (x 0) (y 0)) (umul128Hi (x 0) (y 0)) (int 0) (int 0)) .u128)
    else match a.constU64, b.constU64 with
      | some c, _ => do
        let z ← mulU64Const (extractU256Operand b) (int c)
        pure (.full z)
      | none, some c => do
        let z ← mulU64Const (extractU256Operand a) (int c)
        pure (.full z)
      | none, none =>
        let z := code.product (vals (extractU256Operand a)) (vals (extractU256Operand b))
        pure (.full fun i => .run (z i))

theorem addTermWithCarry_gives (sum carry term : Inst) :
    Gives (addTermWithCarry sum carry term) fun x => (x.1.val, x.2.val) = count (sum.val, carry.val) term.val := by
  intro flag
  refine ⟨_, _, rfl, ?_⟩
  exact congrArg (fun n => ((adc sum.val term.val false).1, n + _)) (BitVec.add_zero carry.val)

theorem addTermNoCarry_gives (sum term : Inst) : Gives (addTermNoCarry sum term) fun x => x.val = sum.val + term.val :=
  fun _ => ⟨_, _, rfl, BitVec.add_zero _⟩

theorem word_mul_of_value {x y z : U256Inst} (product : value 4 (vals z) = value 4 (vals x) * value 4 (vals y) % 2 ^ 256) :
    word x * word y = word z := by
  apply BitVec.eq_of_toNat_eq
  rw [BitVec.toNat_mul, toNat_word, toNat_word, toNat_word, product]

theorem mulU64Const_gives (x : U256Inst) (b : Inst) :
    Gives (mulU64Const x b) fun z => word z = word x * b.val.setWidth 256 := by
  refine (addTermWithCarry_gives _ _ _).bind fun u1 first => ?_
  refine (addTermWithCarry_gives _ _ _).bind fun u2 second => ?_
  refine (addTermWithCarry_gives _ _ _).bind fun u3 third => ?_
  refine (addTermNoCarry_gives _ _).bind fun u4 fourth => ?_
  refine (addTermNoCarry_gives _ _).bind fun r3 fifth => .pure ?_
  rw [second] at third
  replace first : (u1.1.val, u1.2.val) = column (mulHigh (x 0).val b.val) [(x 1).val * b.val] := first
  replace third : (u3.1.val, u3.2.val) = column (mulHigh (x 1).val b.val) [(x 2).val * b.val, u1.2.val] := third
  have c1 := toNat_column (mulHigh (x 0).val b.val) [(x 1).val * b.val] (by simp)
  have c2 := toNat_column (mulHigh (x 1).val b.val) [(x 2).val * b.val, u1.2.val] (by simp)
  rw [← first] at c1
  rw [← third] at c2
  have p0 := toNat_mul (x 0).val b.val
  have p1 := toNat_mul (x 1).val b.val
  have p2 := toNat_mul (x 2).val b.val
  have p3 := toNat_mul (x 3).val b.val
  simp only [List.map_cons, List.map_nil, List.sum_cons, List.sum_nil, Nat.add_zero] at c1 c2
  have top : r3.val.toNat = ((mulHigh (x 2).val b.val).toNat + ((x 3).val * b.val).toNat + u3.2.val.toNat) % 2 ^ 64 := by
    rw [fifth, fourth, BitVec.toNat_add, BitVec.toNat_add, Nat.mod_add_mod]
    rfl
  have rest := Nat.mod_add_div ((mulHigh (x 2).val b.val).toNat + ((x 3).val * b.val).toNat + u3.2.val.toNat) (2 ^ 64)
  rw [← top] at rest
  generalize ((mulHigh (x 2).val b.val).toNat + ((x 3).val * b.val).toNat + u3.2.val.toNat) / 2 ^ 64 = k at rest
  rw [← word_one b]
  have total : value 4 (vals x) * value 4 (vals (quad b (int 0) (int 0) (int 0))) =
      value 4 (vals (quad (umul128 (x 0) b) u1.1 u3.1 r3)) + 2 ^ 256 * (k + (mulHigh (x 3).val b.val).toNat) := by
    simp only [value_four, vals, quad, int, umul128, Inst.val_run, Inst.val_const]
    rw [show (0 : BitVec 64).toNat = 0 from rfl]
    linear_combination p0.symm + 2 ^ 64 * (c1.symm + p1.symm) + 2 ^ 128 * (c2.symm + p2.symm) +
      2 ^ 192 * (rest.symm + p3.symm)
  refine (word_mul_of_value ?_).symm
  rw [total, Nat.add_mul_mod_self_left, Nat.mod_eq_of_lt (value_lt 4 _)]

theorem Operand.word_oneConstant {a : Operand} (h : a.isOneConstant = true) : a.word = 1 := by
  cases a with
  | const v =>
    simp only [isOneConstant, Bool.and_eq_true, beq_iff_eq] at h
    have known : (Operand.const v).constU64 = some 1 := by
      rw [constU64, if_pos ⟨h.1.1.2, h.1.2, h.2⟩, h.1.1.1]
    rw [word_constU64 known]
    rfl
  | _ => exact absurd h Bool.false_ne_true

theorem mulU64_exact {a b : Operand} (ha : a.Sound) (hb : b.Sound) (both : a.bothFitU64 b = true) :
    word (quad (umul128 (extractU256Operand a 0) (extractU256Operand b 0))
      (umul128Hi (extractU256Operand a 0) (extractU256Operand b 0)) (int 0) (int 0)) = a.word * b.word := by
  simp only [Operand.bothFitU64, Bool.and_eq_true, beq_iff_eq] at both
  have left := ha.toNat_word both.1
  have right := hb.toNat_word both.2
  generalize extractU256Operand a 0 = x at *
  generalize extractU256Operand b 0 = y at *
  have product := toNat_mul x.val y.val
  have small : x.val.toNat * y.val.toNat < 2 ^ 64 * 2 ^ 64 := Nat.mul_lt_mul'' x.val.isLt y.val.isLt
  apply BitVec.eq_of_toNat_eq
  rw [BitVec.toNat_mul, left, right, Nat.mod_eq_of_lt (Nat.lt_trans small (by decide)), toNat_word, value_four]
  simp only [vals, quad, int, umul128, umul128Hi, Inst.val_run, Inst.val_const]
  rw [show (0 : BitVec 64).toNat = 0 from rfl]
  exact product

theorem MulCode.exact (code : MulCode) (x y : U256Inst) :
    word (fun i => .run (code.product (vals x) (vals y) i)) = word x * word y := by
  obtain ⟨hasBMI2, hasADX, c, a, b, r, c', ha, hb, run, limbs⟩ := code.selected (vals x) (vals y)
  obtain ⟨r', c'', run', product⟩ := X86.lowerEvmU256MulExpr_yields hasBMI2 hasADX ha hb
  obtain ⟨rfl, rfl⟩ : r = r' ∧ c' = c'' := by
    rw [run] at run'
    exact Prod.mk.inj (Option.some.inj run')
  refine (word_mul_of_value ?_).symm
  rw [← product]
  exact value_congr limbs

/-- **Multiplication is exact**, and its range is sound. -/
theorem handleMul_gives (code : MulCode) {a b : Operand} (ha : a.Sound) (hb : b.Sound) :
    Gives (handleMul code a b) fun z => z.word = a.word * b.word ∧ z.Sound := by
  unfold handleMul
  split
  · exact .pure ⟨word_ofWord _, Operand.sound_ofWord _⟩
  · split
    · next none =>
      refine .pure ⟨(word_ofWord 0).trans ?_, Operand.sound_ofWord 0⟩
      rw [Bool.or_eq_true] at none
      rcases none with none | none
      · rw [Operand.word_zeroConstant none]
        exact BitVec.zero_mul.symm
      · rw [Operand.word_zeroConstant none]
        exact BitVec.mul_zero.symm
    · split
      · next one =>
        refine .pure ⟨?_, hb⟩
        rw [Operand.word_oneConstant one]
        exact (BitVec.one_mul _).symm
      · split
        · next one =>
          refine .pure ⟨?_, ha⟩
          rw [Operand.word_oneConstant one]
          exact (BitVec.mul_one _).symm
        · split
          · next both =>
            rw [Bool.and_eq_true, Bool.and_eq_true] at both
            exact .pure ⟨mulU64_exact ha hb both.1.1, Operand.sound_two _ _⟩
          · cases left : a.constU64 with
            | some c =>
              refine (mulU64Const_gives _ _).bind fun z product => .pure ⟨?_, Operand.sound_full z⟩
              rw [word_full, product, Operand.word_constU64 left, BitVec.mul_comm]
              rfl
            | none =>
              cases right : b.constU64 with
              | some c =>
                refine (mulU64Const_gives _ _).bind fun z product => .pure ⟨?_, Operand.sound_full z⟩
                rw [word_full, product, Operand.word_constU64 right]
                rfl
              | none => exact .pure ⟨code.exact _ _, Operand.sound_full _⟩

/-! ## The code of a target -/

/-- A machine with the limbs of two operands in its first registers. -/
def loaded (x y : Nat → BitVec 64) : X86.Cpu where
  regs r := if r ≤ 4 then x (r - 1) else y (r - 5)
  next := 9
  next_pos := by decide
  rax := 0
  rdx := 0
  flags := ⟨false, false⟩

theorem loaded_left (x y : Nat → BitVec 64) {i : Nat} (inside : i < 4) : (loaded x y).Has (i + 1) (x i) := by
  refine ⟨⟨Nat.succ_pos i, ?_, Nat.succ_ne_zero i⟩, ?_⟩
  · show i + 1 < 9
    omega
  · show (if i + 1 ≤ 4 then x (i + 1 - 1) else y (i + 1 - 5)) = x i
    rw [if_pos (by omega), Nat.add_sub_cancel]

theorem loaded_right (x y : Nat → BitVec 64) {i : Nat} (inside : i < 4) : (loaded x y).Has (i + 5) (y i) := by
  refine ⟨⟨by omega, ?_, Nat.succ_ne_zero _⟩, ?_⟩
  · show i + 5 < 9
    omega
  · show (if i + 5 ≤ 4 then x (i + 5 - 1) else y (i + 5 - 5)) = y i
    rw [if_neg (by omega), Nat.add_sub_cancel]

def MulCode.of (hasBMI2 hasADX : Bool) : MulCode where
  product x y := match X86.lowerEvmU256MulExpr hasBMI2 hasADX (· + 1) (· + 5) (loaded x y) with
    | some (r, c) => fun i => c.regs (r i)
    | none => fun _ => 0
  selected x y := by
    have ha := fun i (inside : i < 4) => loaded_left x y inside
    have hb := fun i (inside : i < 4) => loaded_right x y inside
    obtain ⟨r, c', run, _⟩ := X86.lowerEvmU256MulExpr_yields hasBMI2 hasADX ha hb
    refine ⟨hasBMI2, hasADX, loaded x y, (· + 1), (· + 5), r, c', ha, hb, run, fun i _ => ?_⟩
    rw [run]

/-- **JIT multiplication is exact.** Both selected codes multiply, from any registers that hold the operands,
and the operand that `handleMul` builds has the limbs of the product. -/
theorem handleMul_exact (code : MulCode) (a b : Operand) (ha : a.Sound) (hb : b.Sound) :
    (∀ (hasBMI2 hasADX : Bool) (c : X86.Cpu) (ra rb : Nat → Nat) (x y : Nat → BitVec 64),
      (∀ i < 4, c.Has (ra i) (x i)) → (∀ i < 4, c.Has (rb i) (y i)) →
      X86.Yields (X86.lowerEvmU256MulExpr hasBMI2 hasADX ra rb) c fun r c' =>
        ∀ i < 4, c'.regs (r i) = limb (ofLimbs x * ofLimbs y) i) ∧
      Gives (handleMul code a b) fun z => ∀ i < 4, (extractU256Operand z i).val = limb (a.word * b.word) i := by
  constructor
  · intro hasBMI2 hasADX c ra rb x y hx hy
    refine (X86.lowerEvmU256MulExpr_yields hasBMI2 hasADX hx hy).mono fun r c' product i inside => ?_
    have limbs : word (fun i => .run (x i)) * word (fun i => .run (y i)) = word fun i => .run (c'.regs (r i)) :=
      word_mul_of_value product
    exact word_eq_iff.mp limbs.symm i inside
  · exact (handleMul_gives code ha hb).mono fun z h => word_eq_iff.mp h.1

theorem handleMul_exact_narrow : Gives
    (handleMul (.of true true) (.insts (quad (.run 3) (int 0) (int 0) (int 0)) .u64) (.ofWord (2 ^ 200))) fun z =>
      ∀ i < 4, (extractU256Operand z i).val =
        limb ((Operand.insts (quad (.run 3) (int 0) (int 0) (int 0)) .u64).word * (Operand.ofWord (2 ^ 200)).word) i :=
  (handleMul_exact (.of true true) (.insts (quad (.run 3) (int 0) (int 0) (int 0)) .u64) (.ofWord (2 ^ 200))
    (Operand.sound_one _) (Operand.sound_ofWord _)).2

end Dtvm.Jit.Mir
