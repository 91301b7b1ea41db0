import Dtvm.Jit.MirSigned

/-!
# Comparisons

Two words are compared from their top limb down: a limb decides if all limbs above it are equal, and the sign
counts at the top limb only. A constant of one limb is compared with the lowest limb, once the limbs above it
are known to be zero. `ISZERO` is put off: its operand keeps the limbs that are tested, and a second `ISZERO`
turns the test round. `comparisons_exact` follows the operands of a stack through any chain of such opcodes.
-/

namespace Dtvm.Jit.Mir

open Limb Handler

/-! ## The builder -/

/-- `CompareOperator`, of two operands. -/
inductive CompareOperator where
  | eq | lt | gt | ltS | gtS
deriving DecidableEq

def bit (b : Bool) : BitVec 64 := if b then 1 else 0

def truth (i : Inst) : Operand := .insts (quad (protectUnsafeValue i) (int 0) (int 0) (int 0)) .u64

def upper (x : U256Inst) : Inst := Mir.or (Mir.or (x 1) (x 2)) (x 3)

def handleCompareEqU64 (fullOp : Operand) (u64Val : BitVec 64) : Operand :=
  let x := extractU256Operand fullOp
  truth (Mir.and (cmp .eq (x 0) (int u64Val)) (cmp .eq (upper x) (int 0)))

/-- A word against a constant of one limb: limbs above the lowest one decide. -/
def compareRhsU64 (p : Predicate) (above : BitVec 64) (l : Operand) (rhsU64 : BitVec 64) : Operand :=
  let x := extractU256Operand l
  truth (select (cmp .ne (upper x) (int 0)) (int above) (cmp p (x 0) (int rhsU64)))

def handleCompareLtRhsU64 := compareRhsU64 .ult 0

def handleCompareGtRhsU64 := compareRhsU64 .ugt 1

def handleCompareEQ (x y : U256Inst) : Inst :=
  [1, 2, 3].foldl (fun result i => Mir.and result (cmp .eq (x i) (y i))) (cmp .eq (x 0) (y 0))

/-- `handleCompareGT_LT`, with the predicate of the top limb and that of the others: the result so far, and whether
all limbs so far are equal. -/
def handleCompareGT_LT (top low : Predicate) (x y : U256Inst) : Inst :=
  let next (acc : Inst × Inst) (i : Nat) : Inst × Inst :=
    (select acc.2 (cmp low (x i) (y i)) acc.1, Mir.and acc.2 (cmp .eq (x i) (y i)))
  ([2, 1, 0].foldl next (cmp top (x 3) (y 3), cmp .eq (x 3) (y 3))).1

def handleCompareImpl : CompareOperator → U256Inst → U256Inst → Inst
  | .eq => handleCompareEQ
  | .lt => handleCompareGT_LT .ult .ult
  | .gt => handleCompareGT_LT .ugt .ugt
  | .ltS => handleCompareGT_LT .slt .ult
  | .gtS => handleCompareGT_LT .sgt .ugt

def CompareOperator.fold (op : CompareOperator) (a b : Nat → BitVec 64) : Bool :=
  let lneg := a 3 >>> 63 != 0
  let rneg := b 3 >>> 63 != 0
  match op with
  | .eq => ofLimbs a == ofLimbs b
  | .lt => (ofLimbs a).ult (ofLimbs b)
  | .gt => (ofLimbs b).ult (ofLimbs a)
  | .ltS => if lneg != rneg then lneg else (ofLimbs a).ult (ofLimbs b)
  | .gtS => if lneg != rneg then rneg else (ofLimbs b).ult (ofLimbs a)

/-- `handleCompareOp`, of operands that are not both constants. -/
def compareAtRun (op : CompareOperator) (l r : Operand) : Operand :=
  let general := truth (handleCompareImpl op (extractU256Operand l) (extractU256Operand r))
  match op with
  | .eq =>
    match l.constU64, r.constU64 with
    | some c, _ => handleCompareEqU64 r c
    | none, some c => handleCompareEqU64 l c
    | none, none => general
  | .lt =>
    match r.constU64, l.constU64 with
    | some c, _ => handleCompareLtRhsU64 l c
    | none, some c => handleCompareGtRhsU64 r c
    | none, none => general
  | .gt =>
    match r.constU64, l.constU64 with
    | some c, _ => handleCompareGtRhsU64 l c
    | none, some c => handleCompareLtRhsU64 r c
    | none, none => general
  | .ltS | .gtS => general

def handleCompareOp (op : CompareOperator) (l r : Operand) : Operand :=
  match l, r with
  | .const a, .const b => .const (quad (bit (op.fold a b)) 0 0 0)
  | l, r => compareAtRun op l r

/-- `handleCompareOp<CO_EQZ>`. -/
def handleIsZero : Operand → Operand
  | .const v => .const (quad (bit (v 0 == 0 && v 1 == 0 && v 2 == 0 && v 3 == 0)) 0 0 0)
  | .zeroTest base isNegated => .zeroTest base !isNegated
  | a => .zeroTest (extractU256Operand a) false

/-- The condition that `handleJumpI` branches on. -/
def jumpCondition (cond : Operand) : Inst :=
  let x := extractU256Operand cond
  select (cmp .ne (Mir.or (Mir.or (Mir.or (x 0) (x 1)) (x 2)) (x 3)) (int 0)) (int 1) (int 0)

/-! ## Limbs -/

def lexLess (top low : BitVec 64 → BitVec 64 → Bool) (x y : Nat → BitVec 64) : Bool :=
  if x 3 = y 3 then
    if x 2 = y 2 then
      if x 1 = y 1 then low (x 0) (y 0) else low (x 1) (y 1)
    else low (x 2) (y 2)
  else top (x 3) (y 3)

theorem lexLess_swap (top low : BitVec 64 → BitVec 64 → Bool) (x y : Nat → BitVec 64) :
    lexLess (fun a b => top b a) (fun a b => low b a) x y = lexLess top low y x := by
  simp only [lexLess, eq_comm]

theorem lexLess_ult (x y : U256Inst) : lexLess BitVec.ult BitVec.ult (vals x) (vals y) = (word x).ult (word y) := by
  rw [Bool.eq_iff_iff, BitVec.ult_iff_lt, BitVec.lt_def, toNat_word, toNat_word, value_four, value_four, lexLess]
  simp only [← BitVec.toNat_inj]
  have hx (i : Nat) := (vals x i).isLt
  have hy (i : Nat) := (vals y i).isLt
  have := hx 0; have := hx 1; have := hx 2
  have := hy 0; have := hy 1; have := hy 2
  split_ifs <;> rw [BitVec.ult_iff_lt, BitVec.lt_def] <;> omega

theorem lexLess_slt (x y : U256Inst) : lexLess BitVec.slt BitVec.ult (vals x) (vals y) = (word x).slt (word y) := by
  rw [BitVec.slt_eq_ult, msb_word, msb_word, ← lexLess_ult, lexLess, lexLess]
  split
  · next same =>
    replace same : (x 3).val = (y 3).val := same
    rw [same, bne_self_eq_false, Bool.false_xor]
  · exact BitVec.slt_eq_ult

theorem and_bit {a b : Inst} {p q : Bool} (ha : a.val = bit p) (hb : b.val = bit q) :
    (Mir.and a b).val = bit (p && q) := by
  rw [Mir.and, Inst.val_run, ha, hb]
  cases p <;> cases q <;> rfl

theorem select_bit {c : Inst} {p : Bool} (h : c.val = bit p) (a b : Inst) :
    (select c a b).val = if p then a.val else b.val := by
  rw [select, Inst.val_run, h]
  cases p <;> rfl

theorem handleCompareGT_LT_val (top low : Predicate) (x y : U256Inst) :
    (handleCompareGT_LT top low x y).val = bit (lexLess top.holds low.holds (vals x) (vals y)) := by
  have equal (i : Nat) : (cmp .eq (x i) (y i)).val = bit (vals x i == vals y i) := rfl
  have upTo2 := and_bit (equal 3) (equal 2)
  show (select _ _ _).val = _
  rw [select_bit (and_bit upTo2 (equal 1)), select_bit upTo2, select_bit (equal 3), lexLess]
  by_cases h3 : vals x 3 = vals y 3
  · by_cases h2 : vals x 2 = vals y 2
    · by_cases h1 : vals x 1 = vals y 1
      · simp only [h3, h2, h1, BEq.rfl, Bool.and_self, if_true]
        rfl
      · simp only [h3, h2, h1, BEq.rfl, Bool.and_self, if_true, beq_eq_false_iff_ne.mpr h1, Bool.and_false,
          Bool.false_eq_true, if_false]
        rfl
    · simp only [h3, h2, BEq.rfl, if_true, beq_eq_false_iff_ne.mpr h2, Bool.and_false, Bool.false_and,
        Bool.false_eq_true, if_false]
      rfl
  · simp only [h3, beq_eq_false_iff_ne.mpr h3, Bool.false_and, Bool.false_eq_true, if_false]
    rfl

theorem handleCompareEQ_val (x y : U256Inst) : (handleCompareEQ x y).val = bit (word x == word y) := by
  have equal (i : Nat) : (cmp .eq (x i) (y i)).val = bit (vals x i == vals y i) := rfl
  refine (and_bit (and_bit (and_bit (equal 0) (equal 1)) (equal 2)) (equal 3)).trans (congrArg bit ?_)
  rw [Bool.eq_iff_iff, beq_iff_eq, word_eq_iff]
  simp only [Bool.and_eq_true, beq_iff_eq]
  constructor
  · rintro ⟨⟨⟨h0, h1⟩, h2⟩, h3⟩ i inside
    rw [limb_word y inside]
    match i, inside with
    | 0, _ => exact h0
    | 1, _ => exact h1
    | 2, _ => exact h2
    | 3, _ => exact h3
  · intro h
    have limbs (i : Nat) (inside : i < 4) : vals x i = vals y i := (h i inside).trans (limb_word y inside)
    exact ⟨⟨⟨limbs 0 (by decide), limbs 1 (by decide)⟩, limbs 2 (by decide)⟩, limbs 3 (by decide)⟩

/-! ## Words -/

def CompareOperator.holds : CompareOperator → Word → Word → Bool
  | .eq, a, b => a == b
  | .lt, a, b => decide (a.toNat < b.toNat)
  | .gt, a, b => decide (b.toNat < a.toNat)
  | .ltS, a, b => decide (a.toInt < b.toInt)
  | .gtS, a, b => decide (b.toInt < a.toInt)

theorem handleCompareImpl_val (op : CompareOperator) (x y : U256Inst) :
    (handleCompareImpl op x y).val = bit (op.holds (word x) (word y)) := by
  cases op with
  | eq => exact handleCompareEQ_val x y
  | lt => exact (handleCompareGT_LT_val .ult .ult x y).trans (congrArg bit (lexLess_ult x y))
  | ltS => exact (handleCompareGT_LT_val .slt .ult x y).trans (congrArg bit (lexLess_slt x y))
  | gt =>
    refine (handleCompareGT_LT_val .ugt .ugt x y).trans (congrArg bit ?_)
    exact (lexLess_swap BitVec.ult BitVec.ult _ _).trans (lexLess_ult y x)
  | gtS =>
    refine (handleCompareGT_LT_val .sgt .ugt x y).trans (congrArg bit ?_)
    exact (lexLess_swap BitVec.slt BitVec.ult _ _).trans (lexLess_slt y x)

theorem setWidth_bit (b : Bool) : (bit b).setWidth 256 = ofBool b := by
  cases b <;> rfl

theorem truth_exact {i : Inst} {b : Bool} (h : i.val = bit b) : Exact (ofBool b) (truth i) := by
  refine ⟨(word_one _).trans ?_, Operand.sound_one _⟩
  rw [← setWidth_bit, ← h]
  rfl

theorem fold_exact (b : Bool) : Exact (ofBool b) (.const (quad (bit b) 0 0 0)) :=
  ⟨(Operand.word_constU64 (a := .const _) (c := bit b) rfl).trans (setWidth_bit b), Operand.sound_const _⟩

theorem shifted_top (v : Nat → BitVec 64) : (v 3 >>> 63 != 0) = (ofLimbs v).msb :=
  (shifted_sign (v 3)).trans (msb_word fun i => .run (v i)).symm

/-- Signs that differ decide; equal signs leave the order of the words as it is. -/
theorem fold_slt (a b : Word) : (if a.msb != b.msb then a.msb else a.ult b) = a.slt b := by
  have := a.isLt
  have := b.isLt
  rw [BitVec.slt, BitVec.ult, BitVec.toInt_eq_msb_cond, BitVec.toInt_eq_msb_cond]
  cases a.msb <;> cases b.msb <;> simp <;> omega

theorem CompareOperator.fold_eq (op : CompareOperator) (a b : Nat → BitVec 64) :
    op.fold a b = op.holds (ofLimbs a) (ofLimbs b) := by
  cases op with
  | eq | lt | gt => rfl
  | ltS =>
    rw [fold, shifted_top, shifted_top]
    exact fold_slt _ _
  | gtS =>
    rw [fold, shifted_top, shifted_top, bne_comm]
    exact fold_slt _ _

/-- A word against a constant of one limb: the lowest limb decides, unless the word has others. -/
theorem upper_cases (x : U256Inst) :
    (upper x).val = 0 ∧ (word x).toNat = (x 0).val.toNat ∨ (upper x).val ≠ 0 ∧ 2 ^ 64 ≤ (word x).toNat := by
  have same : (hasUpper x).val = 0 ↔ (upper x).val = 0 := by
    refine (cmp_val .ne _ _).trans (bne_eq_false_iff_eq.trans ?_)
    show _ = _ ↔ (x 1).val ||| (x 2).val ||| (x 3).val = 0
    rw [BitVec.or_assoc]
    rfl
  by_cases none : (upper x).val = 0
  · exact .inl ⟨none, toNat_word_of_hasUpper (same.mpr none)⟩
  · exact .inr ⟨none, le_word_of_hasUpper (mt same.mp none)⟩

/-! ## The handlers -/

theorem eq_bit (a b : Inst) : (cmp .eq a b).val = bit (a.val == b.val) := rfl

theorem bne_bit (a : Inst) : (cmp .ne a (int 0)).val = bit (a.val != 0) := rfl

theorem handleCompareEqU64_exact (a : Operand) (c : BitVec 64) :
    Exact (ofBool (a.word == c.setWidth 256)) (handleCompareEqU64 a c) := by
  refine truth_exact ((and_bit (eq_bit _ _) (eq_bit _ _)).trans (congrArg bit ?_))
  have := c.isLt
  have limb : (c.setWidth 256).toNat = c.toNat := toNat_setWidth c
  rw [Bool.eq_iff_iff, Bool.and_eq_true, beq_iff_eq, beq_iff_eq, beq_iff_eq, ← BitVec.toNat_inj (y := c.setWidth 256),
    limb, Operand.word]
  rcases upper_cases (extractU256Operand a) with ⟨zero, low⟩ | ⟨nonzero, high⟩
  · rw [low]
    exact ⟨fun h => congrArg BitVec.toNat h.1, fun h => ⟨BitVec.eq_of_toNat_eq h, zero⟩⟩
  · exact ⟨fun h => absurd h.2 nonzero, fun h => absurd h (by omega)⟩

theorem compareRhsU64_exact {p : Predicate} {above : Bool} {r : Nat → Nat → Bool}
    (low : ∀ a b, p.holds a b = r a.toNat b.toNat) (high : ∀ n m, m < 2 ^ 64 → 2 ^ 64 ≤ n → r n m = above) (a : Operand)
    (c : BitVec 64) : Exact (ofBool (r a.word.toNat c.toNat)) (compareRhsU64 p (bit above) a c) := by
  refine truth_exact ((select_bit (bne_bit _) _ _).trans ?_)
  rcases upper_cases (extractU256Operand a) with ⟨zero, one⟩ | ⟨nonzero, more⟩
  · rw [zero, Operand.word, one, ← low]
    rfl
  · rw [if_pos (bne_iff_ne.mpr nonzero), Operand.word, high _ _ c.isLt more]
    rfl

theorem handleCompareLtRhsU64_exact (a : Operand) (c : BitVec 64) :
    Exact (ofBool (decide (a.word.toNat < c.toNat))) (handleCompareLtRhsU64 a c) :=
  compareRhsU64_exact (r := fun n m => decide (n < m)) (fun _ _ => rfl) (fun _ _ _ _ => decide_eq_false (by omega)) a c

theorem handleCompareGtRhsU64_exact (a : Operand) (c : BitVec 64) :
    Exact (ofBool (decide (c.toNat < a.word.toNat))) (handleCompareGtRhsU64 a c) :=
  compareRhsU64_exact (r := fun n m => decide (m < n)) (fun _ _ => rfl) (fun _ _ _ _ => decide_eq_true (by omega)) a c

theorem compareAtRun_exact (op : CompareOperator) (l r : Operand) :
    Exact (ofBool (op.holds l.word r.word)) (compareAtRun op l r) := by
  have general : Exact _ (truth (handleCompareImpl op (extractU256Operand l) (extractU256Operand r))) :=
    truth_exact (handleCompareImpl_val op _ _)
  unfold compareAtRun CompareOperator.holds
  cases op with
  | eq =>
    dsimp only
    split
    · next c h =>
      rw [Operand.word_constU64 h, BEq.comm]
      exact handleCompareEqU64_exact r c
    · next c _ h =>
      rw [Operand.word_constU64 h]
      exact handleCompareEqU64_exact l c
    · exact general
  | lt =>
    dsimp only
    split
    · next c h =>
      rw [Operand.word_constU64 h, toNat_setWidth]
      exact handleCompareLtRhsU64_exact l c
    · next c _ h =>
      rw [Operand.word_constU64 h, toNat_setWidth]
      exact handleCompareGtRhsU64_exact r c
    · exact general
  | gt =>
    dsimp only
    split
    · next c h =>
      rw [Operand.word_constU64 h, toNat_setWidth]
      exact handleCompareGtRhsU64_exact l c
    · next c _ h =>
      rw [Operand.word_constU64 h, toNat_setWidth]
      exact handleCompareLtRhsU64_exact r c
    · exact general
  | ltS | gtS => exact general

/-- **A comparison is exact**, and its range is sound. -/
theorem handleCompareOp_exact (op : CompareOperator) (l r : Operand) :
    Exact (ofBool (op.holds l.word r.word)) (handleCompareOp op l r) := by
  unfold handleCompareOp
  split
  · next a b =>
    rw [op.fold_eq]
    exact fold_exact _
  · exact compareAtRun_exact op l r

theorem word_eq_zero (x : U256Inst) :
    word x = 0 ↔ (((x 0).val = 0 ∧ (x 1).val = 0) ∧ (x 2).val = 0) ∧ (x 3).val = 0 := by
  rw [← BitVec.toNat_inj (x := word x), toNat_word, value_four]
  simp only [← BitVec.toNat_inj, vals]
  show _ + _ + _ + _ = 0 ↔ ((_ = 0 ∧ _ = 0) ∧ _ = 0) ∧ _ = 0
  omega

theorem folded_eq_zero (x : U256Inst) :
    ((Mir.or (Mir.or (Mir.or (x 0) (x 1)) (x 2)) (x 3)).val == 0) = (word x == 0) := by
  have split (a b : BitVec 64) : a ||| b = 0 ↔ a = 0 ∧ b = 0 := BitVec.or_eq_zero_iff
  rw [Bool.eq_iff_iff, beq_iff_eq, beq_iff_eq, word_eq_zero, ← split, ← split, ← split]
  rfl

theorem zeroTest_exact (base : U256Inst) (isNegated : Bool) :
    Exact (ofBool (isNegated != (word base == 0))) (.zeroTest base isNegated) := by
  refine ⟨(word_one _).trans ?_, Operand.sound_of_u256 rfl⟩
  rw [← setWidth_bit, ← folded_eq_zero]
  cases isNegated with
  | false => exact congrArg (fun b => (bit b).setWidth 256) (Bool.false_bne _).symm
  | true => exact congrArg (fun b => (bit b).setWidth 256) (Bool.true_bne _).symm

/-- **`ISZERO` is exact**, on a test that was put off too. -/
theorem handleIsZero_exact (a : Operand) : Exact (ofBool (a.word == 0)) (handleIsZero a) := by
  have fresh : Exact (ofBool (a.word == 0)) (.zeroTest (extractU256Operand a) false) := by
    have := zeroTest_exact (extractU256Operand a) false
    rwa [Bool.false_bne] at this
  cases a with
  | const v =>
    have fold : (v 0 == 0 && v 1 == 0 && v 2 == 0 && v 3 == 0) = ((Operand.const v).word == 0) := by
      rw [Bool.eq_iff_iff, beq_iff_eq, Operand.word, word_eq_zero]
      simp only [Bool.and_eq_true, beq_iff_eq]
      rfl
    rw [← fold]
    exact fold_exact _
  | zeroTest base isNegated =>
    have turned : (ofBool (isNegated != (word base == 0)) == 0) = ((!isNegated) != (word base == 0)) := by
      cases isNegated <;> cases word base == 0 <;> rfl
    rw [(zeroTest_exact base isNegated).1, turned]
    exact zeroTest_exact base !isNegated
  | _ => exact fresh

theorem jumpCondition_val (a : Operand) : (jumpCondition a).val = bit (a.word != 0) := by
  refine (select_bit (bne_bit _) _ _).trans ?_
  rw [bne, folded_eq_zero]
  rfl

/-! ## Chains -/

/-- Opcodes that compare, and those that work on truth values. -/
inductive TruthOp where
  | compare (op : CompareOperator)
  | isZero
  | not
  | bitwise (op : BitwiseOp)
deriving DecidableEq

def TruthOp.build : TruthOp → List Operand → Option (List Operand)
  | .compare op, l :: r :: rest => some (handleCompareOp op l r :: rest)
  | .isZero, a :: rest => some (handleIsZero a :: rest)
  | .not, a :: rest => some (handleNot a :: rest)
  | .bitwise op, l :: r :: rest => some (handleBitwiseOp op l r :: rest)
  | _, _ => none

def TruthOp.eval : TruthOp → List Word → Option (List Word)
  | .compare op, a :: b :: rest => some ((if op.holds a b then 1 else 0) :: rest)
  | .isZero, a :: rest => some ((if a = 0 then 1 else 0) :: rest)
  | .not, a :: rest => some (~~~a :: rest)
  | .bitwise op, a :: b :: rest => some (op.eval a b :: rest)
  | _, _ => none

theorem TruthOp.build_exact (op : TruthOp) (stack : List Operand) (sound : ∀ a ∈ stack, a.Sound) :
    match op.build stack with
    | some built => op.eval (stack.map Operand.word) = some (built.map Operand.word) ∧ ∀ a ∈ built, a.Sound
    | none => op.eval (stack.map Operand.word) = none := by
  have pushed {w : Word} {z : Operand} {rest : List Operand} (h : Exact w z) (hr : ∀ a ∈ rest, a.Sound) :
      some (w :: rest.map Operand.word) = some ((z :: rest).map Operand.word) ∧ ∀ a ∈ z :: rest, a.Sound := by
    refine ⟨by rw [List.map_cons, h.1], fun a mem => ?_⟩
    rcases List.mem_cons.mp mem with rfl | mem
    · exact h.2
    · exact hr a mem
  match op, stack with
  | .compare op, [] | .compare op, [_] | .isZero, [] | .not, [] | .bitwise op, [] | .bitwise op, [_] => rfl
  | .compare op, l :: r :: rest =>
    exact pushed (handleCompareOp_exact op l r) fun a mem => sound a (.tail _ (.tail _ mem))
  | .isZero, a :: rest =>
    have exact := handleIsZero_exact a
    rw [ofBool, if_congr beq_iff_eq rfl rfl] at exact
    exact pushed exact fun b mem => sound b (.tail _ mem)
  | .not, a :: rest => exact pushed ⟨handleNot_word a, Operand.sound_not a⟩ fun b mem => sound b (.tail _ mem)
  | .bitwise op, l :: r :: rest =>
    exact pushed (handleBitwiseOp_exact op (sound l (.head _)) (sound r (.tail _ (.head _))))
      fun a mem => sound a (.tail _ (.tail _ mem))

/-- **Comparisons are exact**, in any chain of opcodes: the operands stand for the words that the opcodes give, within
their ranges, and a jump on one of them is taken if it is not zero. -/
theorem comparisons_exact (ops : List TruthOp) (stack : List Operand) (sound : ∀ a ∈ stack, a.Sound) :
    match ops.foldlM (fun stack op => op.build stack) stack with
    | some built =>
      ops.foldlM (fun stack op => op.eval stack) (stack.map Operand.word) = some (built.map Operand.word) ∧
        ∀ a ∈ built, a.Sound ∧ (jumpCondition a).val = if a.word = 0 then 0 else 1
    | none => ops.foldlM (fun stack op => op.eval stack) (stack.map Operand.word) = none := by
  induction ops generalizing stack with
  | nil =>
    refine ⟨rfl, fun a mem => ⟨sound a mem, ?_⟩⟩
    rw [jumpCondition_val, bit, bne]
    by_cases zero : a.word = 0
    · rw [zero]
      rfl
    · rw [beq_eq_false_iff_ne.mpr zero, if_neg zero]
      rfl
  | cons op ops ih =>
    have first := op.build_exact stack sound
    simp only [List.foldlM_cons]
    cases run : op.build stack with
    | none =>
      rw [run] at first
      simp only [first, Option.bind_eq_bind, Option.bind_none]
    | some built =>
      rw [run] at first
      simp only [first.1, Option.bind_eq_bind, Option.bind_some]
      exact ih built first.2

/-- `SLT` of minus one and zero, then `ISZERO` twice. -/
theorem comparisons_exact_negative :
    ∃ built, ([.compare .ltS, .isZero, .isZero] : List TruthOp).foldlM (fun stack op => op.build stack)
      [.full fun _ => .run (-1), .ofWord 0] = some built ∧ built.map Operand.word = [1] := by
  refine ⟨_, rfl, ?_⟩
  have exact := comparisons_exact [.compare .ltS, .isZero, .isZero] [.full fun _ => .run (-1), .ofWord 0] (by
    intro a mem
    rcases List.mem_cons.mp mem with rfl | mem
    · exact Operand.sound_full _
    · rw [List.mem_singleton.mp mem]
      exact Operand.sound_ofWord 0)
  exact (Option.some.inj (exact.1.symm.trans (by decide)))

end Dtvm.Jit.Mir
