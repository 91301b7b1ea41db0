import Dtvm.Jit.Mir

/-!
# Bitwise operations and shifts

`handleBitwiseOp` works limb by limb. A mask of one or two limbs annihilates the others, which is where
the range of an operand is used and where a narrower one comes from; with a constant of one limb the upper
limbs of a disjunction pass through. `handleLogicalRightShift` moves limbs, and joins the bits that
neighbouring limbs leave; it knows constant amounts.
-/

namespace Dtvm.Jit.Mir

open Limb

/-! ## Conjunction and disjunction -/

/-- The operators of `handleBitwiseOp`. -/
inductive BitwiseOp where
  | and | or | xor
deriving DecidableEq

/-- `getMirOpcode`. -/
def BitwiseOp.inst : BitwiseOp → Inst → Inst → Inst
  | .and => Mir.and
  | .or => Mir.or
  | .xor => Mir.xor

def BitwiseOp.eval {w : Nat} : BitwiseOp → BitVec w → BitVec w → BitVec w
  | .and, a, b => a &&& b
  | .or, a, b => a ||| b
  | .xor, a, b => a ^^^ b

def BitwiseOp.bit : BitwiseOp → Bool → Bool → Bool
  | .and, a, b => a && b
  | .or, a, b => a || b
  | .xor, a, b => a != b

/-- The conjunction with an operand that has a range: the limbs beyond it are zero. -/
def narrowAnd (l r : Operand) : Operand :=
  let range := l.getRange.min r.getRange
  .insts (fun i => if range.limbs ≤ i then int 0
    else protectUnsafeValue (Mir.and (extractU256Operand l i) (extractU256Operand r i))) range

/-- With a constant of one limb: it annihilates the upper limbs, or lets them pass. -/
def withConstU64 (op : BitwiseOp) (other : U256Inst) (c : BitVec 64) : Operand :=
  match op with
  | .and => .insts (quad (protectUnsafeValue (Mir.and (other 0) (int c))) (int 0) (int 0) (int 0)) .u64
  | op => .full fun i => if i = 0 then protectUnsafeValue (op.inst (other 0) (int c)) else other i

def handleBitwiseOp (op : BitwiseOp) (l r : Operand) : Operand :=
  match l, r with
  | .const a, .const b => .const fun i => op.eval (a i) (b i)
  | l, r =>
    if op = .and ∧ (l.isZeroConstant || r.isZeroConstant) then .ofWord 0
    else if op = .and ∧ l.isAllOnesConstant then r
    else if op = .and ∧ r.isAllOnesConstant then l
    else if op ≠ .and ∧ l.isZeroConstant then r
    else if op ≠ .and ∧ r.isZeroConstant then l
    else match l.constU64, r.constU64 with
      | some c, _ => withConstU64 op (extractU256Operand r) c
      | none, some c => withConstU64 op (extractU256Operand l) c
      | none, none =>
        if op = .and ∧ (l.getRange.limbs ≤ 2 ∨ r.getRange.limbs ≤ 2) then narrowAnd l r
        else .full fun i => protectUnsafeValue (op.inst (extractU256Operand l i) (extractU256Operand r i))

theorem BitwiseOp.getLsbD_eval {w : Nat} (op : BitwiseOp) (a b : BitVec w) (k : Nat) :
    (op.eval a b).getLsbD k = op.bit (a.getLsbD k) (b.getLsbD k) := by
  cases op with
  | and => exact BitVec.getLsbD_and
  | or => exact BitVec.getLsbD_or
  | xor => exact BitVec.getLsbD_xor

theorem BitwiseOp.val_inst (op : BitwiseOp) (a b : Inst) : (op.inst a b).val = op.eval a.val b.val := by
  cases op <;> rfl

theorem BitwiseOp.eval_zero {w : Nat} {op : BitwiseOp} (disjunctive : op ≠ .and) (v : BitVec w) : op.eval v 0 = v := by
  cases op with
  | and => exact absurd rfl disjunctive
  | or => exact BitVec.or_zero
  | xor => exact BitVec.xor_zero

theorem BitwiseOp.eval_comm {w : Nat} (op : BitwiseOp) (a b : BitVec w) : op.eval a b = op.eval b a := by
  cases op with
  | and => exact BitVec.and_comm a b
  | or => exact BitVec.or_comm a b
  | xor => exact BitVec.xor_comm a b

theorem BitwiseOp.word_eval (op : BitwiseOp) {x y z : U256Inst}
    (limbs : ∀ i < 4, (z i).val = op.eval (x i).val (y i).val) : word z = op.eval (word x) (word y) :=
  word_bitwise (fun a b k _ => op.getLsbD_eval a b k) (fun a b k _ => op.getLsbD_eval a b k) limbs

theorem Operand.word_allOnesConstant {a : Operand} (h : a.isAllOnesConstant = true) : a.word = -1 := by
  cases a with
  | const v =>
    simp only [isAllOnesConstant, Bool.and_eq_true, beq_iff_eq] at h
    have ones : limb (-1 : Word) 0 = -1 ∧ limb (-1 : Word) 1 = -1 ∧ limb (-1 : Word) 2 = -1 ∧ limb (-1 : Word) 3 = -1 := by
      decide
    refine word_eq_iff.mpr fun i inside => ?_
    match i, inside with
    | 0, _ => exact h.1.1.1.trans ones.1.symm
    | 1, _ => exact h.1.1.2.trans ones.2.1.symm
    | 2, _ => exact h.1.2.trans ones.2.2.1.symm
    | 3, _ => exact h.2.trans ones.2.2.2.symm
  | _ => exact absurd h Bool.false_ne_true

theorem word_masked (x : U256Inst) (c : BitVec 64) :
    word (quad (protectUnsafeValue (Mir.and (x 0) (int c))) (int 0) (int 0) (int 0)) = word x &&& c.setWidth 256 := by
  have mask := word_one (int c)
  rw [show c.setWidth 256 = word (quad (int c) (int 0) (int 0) (int 0)) from mask.symm]
  refine BitwiseOp.word_eval .and fun i inside => ?_
  match i, inside with
  | 0, _ => rfl
  | 1, _ | 2, _ | 3, _ => exact BitVec.and_zero.symm

theorem word_lowest {op : BitwiseOp} (disjunctive : op ≠ .and) (x : U256Inst) (c : BitVec 64) :
    word (fun i => if i = 0 then protectUnsafeValue (op.inst (x 0) (int c)) else x i) =
      op.eval (word x) (c.setWidth 256) := by
  have mask := word_one (int c)
  rw [show c.setWidth 256 = word (quad (int c) (int 0) (int 0) (int 0)) from mask.symm]
  refine op.word_eval fun i inside => ?_
  match i, inside with
  | 0, _ => exact op.val_inst (x 0) (int c)
  | 1, _ | 2, _ | 3, _ => exact (BitwiseOp.eval_zero disjunctive _).symm

theorem ValueRange.min_limbs (a b : ValueRange) : (a.min b).limbs = Min.min a.limbs b.limbs := by
  cases a <;> cases b <;> rfl

theorem word_narrowAnd {l r : Operand} (hl : l.Sound) (hr : r.Sound) : (narrowAnd l r).word = l.word &&& r.word := by
  refine BitwiseOp.word_eval .and fun i inside => ?_
  show (ite _ (int 0) _ : Inst).val = _
  split
  · next beyond =>
    rw [ValueRange.min_limbs] at beyond
    show (0 : BitVec 64) = (extractU256Operand l i).val &&& (extractU256Operand r i).val
    rcases Nat.le_total l.getRange.limbs r.getRange.limbs with le | le
    · rw [hl i inside (by rwa [Nat.min_eq_left le] at beyond)]
      exact BitVec.zero_and.symm
    · rw [hr i inside (by rwa [Nat.min_eq_right le] at beyond)]
      exact BitVec.and_zero.symm
  · rfl

theorem sound_narrowAnd (l r : Operand) : (narrowAnd l r).Sound := by
  intro i _ beyond
  replace beyond : (l.getRange.min r.getRange).limbs ≤ i := beyond
  show (ite _ (int 0) _ : Inst).val = 0
  rw [if_pos beyond]
  rfl

theorem withConstU64_exact (op : BitwiseOp) (other : U256Inst) (c : BitVec 64) :
    (withConstU64 op other c).word = op.eval (word other) (c.setWidth 256) ∧ (withConstU64 op other c).Sound := by
  cases op with
  | and => exact ⟨word_masked other c, Operand.sound_one _⟩
  | or | xor => exact ⟨word_lowest (by decide) other c, Operand.sound_full _⟩

/-- **Bitwise operations are exact**, and their range is sound. -/
theorem handleBitwiseOp_exact (op : BitwiseOp) {l r : Operand} (hl : l.Sound) (hr : r.Sound) :
    (handleBitwiseOp op l r).word = op.eval l.word r.word ∧ (handleBitwiseOp op l r).Sound := by
  unfold handleBitwiseOp
  split
  · exact ⟨op.word_eval fun _ _ => rfl, Operand.sound_const _⟩
  · split
    · next none =>
      refine ⟨(word_ofWord 0).trans ?_, Operand.sound_ofWord 0⟩
      obtain ⟨rfl, none⟩ := none
      rw [Bool.or_eq_true] at none
      rcases none with none | none
      · rw [Operand.word_zeroConstant none]
        exact BitVec.zero_and.symm
      · rw [Operand.word_zeroConstant none]
        exact BitVec.and_zero.symm
    · split
      · next ones =>
        obtain ⟨rfl, ones⟩ := ones
        rw [Operand.word_allOnesConstant ones]
        exact ⟨(BitVec.allOnes_and).symm, hr⟩
      · split
        · next ones =>
          obtain ⟨rfl, ones⟩ := ones
          rw [Operand.word_allOnesConstant ones]
          exact ⟨(BitVec.and_allOnes).symm, hl⟩
        · split
          · next none =>
            refine ⟨?_, hr⟩
            rw [Operand.word_zeroConstant none.2, op.eval_comm]
            exact (BitwiseOp.eval_zero none.1 _).symm
          · split
            · next none =>
              refine ⟨?_, hl⟩
              rw [Operand.word_zeroConstant none.2]
              exact (BitwiseOp.eval_zero none.1 _).symm
            · cases left : l.constU64 with
              | some c =>
                rw [Operand.word_constU64 left, op.eval_comm]
                exact withConstU64_exact op _ c
              | none =>
                cases right : r.constU64 with
                | some c =>
                  rw [Operand.word_constU64 right]
                  exact withConstU64_exact op _ c
                | none =>
                  dsimp only
                  split
                  · next narrow =>
                    obtain ⟨rfl, _⟩ := narrow
                    exact ⟨word_narrowAnd hl hr, sound_narrowAnd l r⟩
                  · exact ⟨op.word_eval fun i _ => op.val_inst _ _, Operand.sound_full _⟩

/-! ## Shifts to the right -/

def isU256GreaterOrEqual (x : U256Inst) (threshold : BitVec 64) : Inst :=
  Mir.or (cmp .ne (Mir.or (Mir.or (x 1) (x 2)) (x 3)) (int 0)) (cmp .uge (x 0) (int threshold))

def getConstShiftAmount : Inst → Option (BitVec 64)
  | .const v => some v
  | .run _ => none

/-- `OP_add`, of an index. -/
def plus (a b : Inst) : Inst := .run (a.val + b.val)

/-- `OP_sub`, of a count. -/
def minus (a b : Inst) : Inst := .run (a.val - b.val)

def shiftedLimb (x : U256Inst) (shift i : Nat) : Inst :=
  let source := i + shift / 64
  if shift % 64 = 0 then
    if source < 4 then x source else int 0
  else if source < 4 then
    let shifted := ushr (x source) (int (BitVec.ofNat 64 (shift % 64)))
    if source + 1 < 4 then Mir.or shifted (shl (x (source + 1)) (int (BitVec.ofNat 64 (64 - shift % 64)))) else shifted
  else int 0

def inBounds (index : Inst) : Inst := Mir.and (cmp .uge index (int 0)) (cmp .ult index (int 4))

def selectedLimb (x : U256Inst) (amount isLargeShift : Inst) (i : Nat) : Inst :=
  let shiftMod64 := Mir.and amount (int 63)
  let componentShift := ushr amount (int 6)
  let srcIdx := plus (int (BitVec.ofNat 64 i)) componentShift
  let isInBounds := inBounds srcIdx
  let srcValue := [0, 1, 2, 3].foldl
    (fun v j => select (cmp .eq srcIdx (int (BitVec.ofNat 64 j))) (x j) v) (int 0)
  let srcValue := select isInBounds srcValue (int 0)
  let nextIdx := plus srcIdx (int 1)
  let isNextValid := inBounds nextIdx
  let hasBitShift := cmp .ne shiftMod64 (int 0)
  let carryShift := select hasBitShift (minus (int 64) shiftMod64) (int 0)
  let carryValue := [0, 1, 2, 3].foldl (fun v k =>
    let isMatch := cmp .eq nextIdx (int (BitVec.ofNat 64 k))
    let nextValue := select isNextValid (select isMatch (x k) (int 0)) (int 0)
    let carryBits := select hasBitShift (shl nextValue carryShift) (int 0)
    select isMatch carryBits v) (int 0)
  let combined := Mir.or (ushr srcValue shiftMod64) carryValue
  select isLargeShift (int 0) (select isInBounds combined (int 0))

def handleLogicalRightShift (x : U256Inst) (amount isLargeShift : Inst) : U256Inst :=
  match getConstShiftAmount amount with
  | some shift =>
    if 256 ≤ shift.toNat then fun _ => int 0
    else fun i => protectUnsafeValue (select isLargeShift (int 0) (shiftedLimb x shift.toNat i))
  | none => fun i => protectUnsafeValue (selectedLimb x amount isLargeShift i)

/-- `handleShift<BO_SHR_U>`. -/
def handleShr (shift value : Operand) : Operand :=
  match shift, value with
  | .const s, .const v =>
    if 256 ≤ (ofLimbs s).toNat then .ofWord 0 else .ofWord (ofLimbs v >>> (ofLimbs s).toNat)
  | shift, value =>
    let s := extractU256Operand shift
    .full (handleLogicalRightShift (extractU256Operand value) (s 0) (isU256GreaterOrEqual s 256))

theorem getLsbD_word_limb (x : U256Inst) (i : Nat) {j : Nat} (bit : j < 64) :
    (word x).getLsbD (64 * i + j) = (decide (i < 4) && (x i).val.getLsbD j) := by
  by_cases inside : i < 4
  · rw [getLsbD_word x (by omega), decide_eq_true inside, Bool.true_and, Nat.mul_add_div (by decide),
      Nat.mul_add_mod, Nat.mod_eq_of_lt bit, Nat.div_eq_of_lt bit, Nat.add_zero]
  · rw [decide_eq_false inside, Bool.false_and, BitVec.getLsbD_of_ge _ _ (by omega)]

theorem getLsbD_ushr_int (a : Inst) {r j : Nat} (small : r < 64) :
    (ushr a (int (BitVec.ofNat 64 r))).val.getLsbD j = a.val.getLsbD (r + j) := by
  simp only [ushr, int, Inst.val_run, Inst.val_const, BitVec.toNat_ofNat]
  rw [Nat.mod_eq_of_lt (by omega : r < 2 ^ 64), Nat.mod_eq_of_lt small, BitVec.getLsbD_ushiftRight]

theorem getLsbD_shl_int (a : Inst) {r j : Nat} (small : r < 64) (bit : j < 64) :
    (shl a (int (BitVec.ofNat 64 r))).val.getLsbD j = (decide (r ≤ j) && a.val.getLsbD (j - r)) := by
  simp only [shl, int, Inst.val_run, Inst.val_const, BitVec.toNat_ofNat]
  rw [Nat.mod_eq_of_lt (by omega : r < 2 ^ 64), Nat.mod_eq_of_lt small, BitVec.getLsbD_shiftLeft,
    decide_eq_true bit, Bool.true_and]
  by_cases le : r ≤ j
  · rw [decide_eq_true le, decide_eq_false (by omega)]
    rfl
  · rw [decide_eq_false le, decide_eq_true (by omega)]
    rfl

/-- **A limb of a word shifted by a constant** has the bits that are that far up in the word. -/
theorem getLsbD_shiftedLimb (x : U256Inst) {shift i j : Nat} (bit : j < 64) :
    (shiftedLimb x shift i).val.getLsbD j = (word x).getLsbD (64 * i + j + shift) := by
  have parts := Nat.div_add_mod shift 64
  have rem : shift % 64 < 64 := Nat.mod_lt shift (by decide)
  have zero : (int 0).val.getLsbD j = false := BitVec.getLsbD_zero
  rw [shiftedLimb]
  dsimp only
  split
  · next whole =>
    rw [show 64 * i + j + shift = 64 * (i + shift / 64) + j by omega, getLsbD_word_limb x _ bit]
    split
    · next inside => rw [decide_eq_true inside, Bool.true_and]
    · next outside => rw [decide_eq_false outside, Bool.false_and, zero]
  · by_cases low : j + shift % 64 < 64
    · -- The bit stays in its limb.
      rw [show 64 * i + j + shift = 64 * (i + shift / 64) + (j + shift % 64) by omega, getLsbD_word_limb x _ low]
      split
      · next inside =>
        have here := getLsbD_ushr_int (x (i + shift / 64)) (j := j) rem
        rw [decide_eq_true inside, Bool.true_and, Nat.add_comm j]
        split
        · rw [Mir.or, Inst.val_run, BitVec.getLsbD_or, here, getLsbD_shl_int _ (by omega) bit,
            decide_eq_false (by omega), Bool.false_and, Bool.or_false]
        · exact here
      · next outside => rw [decide_eq_false outside, Bool.false_and, zero]
    · -- The bit comes from the next limb.
      rw [show 64 * i + j + shift = 64 * (i + shift / 64 + 1) + (j + shift % 64 - 64) by omega,
        getLsbD_word_limb x _ (by omega)]
      have gone : (ushr (x (i + shift / 64)) (int (BitVec.ofNat 64 (shift % 64)))).val.getLsbD j = false := by
        rw [getLsbD_ushr_int _ rem, BitVec.getLsbD_of_ge _ _ (by omega)]
      split
      · split
        · next inside =>
          rw [Mir.or, Inst.val_run, BitVec.getLsbD_or, gone, getLsbD_shl_int _ (by omega) bit,
            decide_eq_true (by omega : 64 - shift % 64 ≤ j), decide_eq_true inside, Bool.false_or, Bool.true_and,
            Bool.true_and, show j - (64 - shift % 64) = j + shift % 64 - 64 by omega]
        · next outside => rw [gone, decide_eq_false outside, Bool.false_and]
      · next outside => rw [zero, decide_eq_false (by omega), Bool.false_and]

theorem word_shifted (x : U256Inst) (n : Nat) : word (shiftedLimb x n) = word x >>> n := by
  refine BitVec.eq_of_getLsbD_eq fun k inside => ?_
  rw [getLsbD_word _ inside, getLsbD_shiftedLimb x (Nat.mod_lt k (by decide)), BitVec.getLsbD_ushiftRight,
    Nat.div_add_mod, Nat.add_comm]

theorem handleShr_const {n : Nat} (small : n < 256) (value : Operand) :
    (handleShr (.const (quad (BitVec.ofNat 64 n) 0 0 0)) value).word = value.word >>> n := by
  have amount : (BitVec.ofNat 64 n).toNat = n := by
    rw [BitVec.toNat_ofNat, Nat.mod_eq_of_lt (by omega)]
  have folded : (ofLimbs (quad (BitVec.ofNat 64 n) 0 0 0)).toNat = n := by
    rw [toNat_ofLimbs]
    show (BitVec.ofNat 64 n).toNat + 2 ^ 64 * 0 + 2 ^ 128 * 0 + 2 ^ 192 * 0 = n
    rw [amount]
    omega
  have notLarge : (isU256GreaterOrEqual (fun i => int (quad (BitVec.ofNat 64 n) 0 0 0 i)) 256).val = 0 := by
    have less : (256 : BitVec 64).ule (BitVec.ofNat 64 n) = false := by
      rw [BitVec.ule, amount]
      exact decide_eq_false (Nat.not_le_of_lt small)
    have high : (cmp .ne (Mir.or (Mir.or (int 0) (int 0)) (int 0)) (int 0)).val = 0 := by decide
    show (cmp .ne (Mir.or (Mir.or (int 0) (int 0)) (int 0)) (int 0)).val |||
      (if (256 : BitVec 64).ule (BitVec.ofNat 64 n) then 1 else 0) = 0
    rw [high, less]
    rfl
  have limbs : ∀ x : U256Inst, word (handleLogicalRightShift x (int (BitVec.ofNat 64 n))
      (isU256GreaterOrEqual (fun i => int (quad (BitVec.ofNat 64 n) 0 0 0 i)) 256)) = word x >>> n := by
    intro x
    rw [← word_shifted]
    refine word_congr fun i _ => ?_
    rw [handleLogicalRightShift, int, getConstShiftAmount]
    dsimp only
    rw [amount, if_neg (Nat.not_le_of_lt small), protectUnsafeValue, select, Inst.val_run, Inst.val_run, if_pos notLarge]
  cases value with
  | const v =>
    rw [handleShr, folded, if_neg (Nat.not_le_of_lt small), word_ofWord]
    rfl
  | _ => exact limbs _

end Dtvm.Jit.Mir
