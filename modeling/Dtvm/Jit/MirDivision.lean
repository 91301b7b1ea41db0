import Dtvm.Jit.MirArith
import Dtvm.Jit.MirBitwise

/-!
# Division

A divisor that is a power of two is a shift or a mask. With a divisor of one limb, the limbs of the
dividend are divided from the top, the remainder of one being the high limb of the next
(`cascade`): it is less than the divisor, so no quotient overflows and no division faults. A zero divisor
is replaced by one before the division, and the result by zero after it. Other divisors go to the run-time
helpers.
-/

namespace Dtvm.Jit.Mir

open Limb

/-! ## The builder -/

/-- The cascade of divisions by one limb: quotient and remainder. -/
def cascade (x : U256Inst) (d : Inst) : Build (U256Inst × Inst) := do
  let (q3, r3) ← udiv128By64 (int 0) (x 3) d
  let (q2, r2) ← udiv128By64 r3 (x 2) d
  let (q1, r1) ← udiv128By64 r2 (x 1) d
  let (q0, r0) ← udiv128By64 r1 (x 0) d
  pure (quad q0 q1 q2 q3, r0)

def handleDivU64Divisor (dividend : Operand) (divisor : BitVec 64) : Build Operand := do
  let (q, _) ← cascade (extractU256Operand dividend) (int divisor)
  pure (.full q)

def handleModU64Divisor (dividend : Operand) (divisor : BitVec 64) : Build Operand := do
  let (_, r) ← cascade (extractU256Operand dividend) (int divisor)
  pure (.full (quad r (int 0) (int 0) (int 0)))

def hasUpper (x : U256Inst) : Inst := cmp .ne (Mir.or (x 1) (Mir.or (x 2) (x 3))) (int 0)

def isZero (b : Inst) : Inst := cmp .eq b (int 0)

def safe (b : Inst) : Inst := select (isZero b) (int 1) b

def handleDivU64Dividend (dividend : BitVec 64) (divisor : Operand) : Build Operand := do
  let y := extractU256Operand divisor
  let q ← udiv (int dividend) (safe (y 0))
  let tmp := select (isZero (y 0)) (int 0) q
  pure (.full (quad (select (hasUpper y) (int 0) tmp) (int 0) (int 0) (int 0)))

def handleModU64Dividend (dividend : BitVec 64) (divisor : Operand) : Build Operand := do
  let y := extractU256Operand divisor
  let r ← urem (int dividend) (safe (y 0))
  let tmp := select (isZero (y 0)) (int 0) r
  pure (.full (quad (select (hasUpper y) (int dividend) tmp) (int 0) (int 0) (int 0)))

def evmGetDiv (dividend divisor : Word) : Word := if divisor = 0 then 0 else dividend / divisor

def evmGetMod (dividend divisor : Word) : Word := if divisor = 0 then 0 else dividend % divisor

def helperResult (w : Word) : U256Inst := fun i => .run (limb w i)

def handleDivModGeneral (dividend divisor : Operand) (wantQuotient : Bool) : Build Operand := do
  let x := extractU256Operand dividend
  let y := extractU256Operand divisor
  if (hasUpper y).val ≠ 0 then
    pure (.full (helperResult ((if wantQuotient then evmGetDiv else evmGetMod) dividend.word divisor.word)))
  else
    let (q, r) ← cascade x (safe (y 0))
    if wantQuotient then pure (.full fun i => select (isZero (y 0)) (int 0) (q i))
    else pure (.full (quad (select (isZero (y 0)) (int 0) r) (int 0) (int 0) (int 0)))

def shiftAmount (d : Nat) : Nat := if 1 < d then shiftAmount (d / 2) + 1 else 0
termination_by d
decreasing_by omega

def powerOfTwo : Operand → Option Word
  | .const v => if ofLimbs v ≠ 0 ∧ ofLimbs v &&& (ofLimbs v - 1) = 0 then some (ofLimbs v) else none
  | _ => none

def handleDiv (dividend divisor : Operand) : Build Operand :=
  match dividend, divisor with
  | .const n, .const d => pure (if ofLimbs d = 0 then .ofWord 0 else .ofWord (ofLimbs n / ofLimbs d))
  | dividend, divisor =>
    match powerOfTwo divisor with
    | some d => pure (handleShr (.const (quad (BitVec.ofNat 64 (shiftAmount d.toNat)) 0 0 0)) dividend)
    | none =>
      if dividend.bothFitU64 divisor && !dividend.isConstant && !divisor.isConstant then do
        let x := extractU256Operand dividend
        let y := extractU256Operand divisor
        let q ← udiv (x 0) (safe (y 0))
        pure (.insts (quad (select (isZero (y 0)) (int 0) q) (int 0) (int 0) (int 0)) .u64)
      else match divisor.constU64.filter (· ≠ 0), dividend.constU64 with
        | some d, _ =>
          if dividend.isConstant then handleDivU64Divisor dividend d
          else
            let x := extractU256Operand dividend
            if (hasUpper x).val ≠ 0 then handleDivU64Divisor dividend d
            else do
              let q ← udiv (x 0) (int d)
              pure (.full (quad q (int 0) (int 0) (int 0)))
        | none, some n => handleDivU64Dividend n divisor
        | none, none => handleDivModGeneral dividend divisor true

def handleMod (dividend divisor : Operand) : Build Operand :=
  match dividend, divisor with
  | .const n, .const d => pure (if ofLimbs d = 0 then .ofWord 0 else .ofWord (ofLimbs n % ofLimbs d))
  | dividend, divisor =>
    match powerOfTwo divisor with
    | some d => pure (handleBitwiseOp .and dividend (.ofWord (d - 1)))
    | none =>
      if dividend.bothFitU64 divisor && !dividend.isConstant && !divisor.isConstant then do
        let x := extractU256Operand dividend
        let y := extractU256Operand divisor
        let r ← urem (x 0) (safe (y 0))
        pure (.insts (quad (select (isZero (y 0)) (int 0) r) (int 0) (int 0) (int 0)) .u64)
      else match divisor.constU64.filter (· ≠ 0), dividend.constU64 with
        | some d, _ => handleModU64Divisor dividend d
        | none, some n => handleModU64Dividend n divisor
        | none, none => handleDivModGeneral dividend divisor false

/-! ## The cascade -/

theorem udiv128By64_gives {hi d : Inst} (lo : Inst) (fits : hi.val.toNat < d.val.toNat) :
    Gives (udiv128By64 hi lo d) fun x =>
      hi.val.toNat * 2 ^ 64 + lo.val.toNat = x.1.val.toNat * d.val.toNat + x.2.val.toNat ∧
        x.2.val.toNat < d.val.toNat := by
  intro carry
  obtain ⟨q, r, run, exact, small⟩ := divWide_exact lo.val fits
  refine ⟨(.run q, .run r), carry, ?_, exact, small⟩
  rw [udiv128By64, run]
  rfl

/-- Long division. Each remainder is less than the divisor, so that the next quotient fits. -/
theorem cascade_gives (x : U256Inst) {d : Inst} (nonzero : d.val ≠ 0) :
    Gives (cascade x d) fun z => (word x).toNat = (word z.1).toNat * d.val.toNat + z.2.val.toNat ∧
      z.2.val.toNat < d.val.toNat := by
  have positive : (int 0).val.toNat < d.val.toNat :=
    Nat.pos_of_ne_zero fun zero => nonzero (BitVec.eq_of_toNat_eq zero)
  refine (udiv128By64_gives (x 3) positive).bind fun z3 ⟨e3, small3⟩ => ?_
  refine (udiv128By64_gives (x 2) small3).bind fun z2 ⟨e2, small2⟩ => ?_
  refine (udiv128By64_gives (x 1) small2).bind fun z1 ⟨e1, small1⟩ => ?_
  refine (udiv128By64_gives (x 0) small1).bind fun z0 ⟨e0, small0⟩ => .pure ⟨?_, small0⟩
  rw [show (int 0).val.toNat = 0 from rfl, Nat.zero_mul, Nat.zero_add] at e3
  rw [toNat_word, toNat_word, value_four, value_four]
  show (x 0).val.toNat + 2 ^ 64 * (x 1).val.toNat + 2 ^ 128 * (x 2).val.toNat + 2 ^ 192 * (x 3).val.toNat =
    (z0.1.val.toNat + 2 ^ 64 * z1.1.val.toNat + 2 ^ 128 * z2.1.val.toNat + 2 ^ 192 * z3.1.val.toNat) * d.val.toNat +
      z0.2.val.toNat
  linear_combination 2 ^ 192 * e3 + 2 ^ 128 * e2 + 2 ^ 64 * e1 + e0

/-! ## Quotients and remainders of words -/

theorem toNat_evmGetDiv (a b : Word) : (evmGetDiv a b).toNat = a.toNat / b.toNat := by
  rw [evmGetDiv]
  split
  · next zero =>
    rw [zero]
    exact (Nat.div_zero _).symm
  · exact BitVec.toNat_udiv

theorem toNat_evmGetMod (a b : Word) : (evmGetMod a b).toNat = if b.toNat = 0 then 0 else a.toNat % b.toNat := by
  rw [evmGetMod]
  by_cases zero : b = 0
  · rw [if_pos zero, zero]
    rfl
  · have positive : b.toNat ≠ 0 := fun h => zero (BitVec.eq_of_toNat_eq h)
    rw [if_neg zero, if_neg positive]
    exact BitVec.toNat_umod

theorem toNat_setWidth (d : BitVec 64) : (d.setWidth 256).toNat = d.toNat :=
  BitVec.toNat_setWidth_of_le (by decide)

theorem eq_evmGetDiv {a b q : Word} {r : Nat} (exact : a.toNat = q.toNat * b.toNat + r) (small : r < b.toNat) :
    q = evmGetDiv a b := by
  apply BitVec.eq_of_toNat_eq
  rw [toNat_evmGetDiv, exact, Nat.add_comm, Nat.add_mul_div_right _ _ (Nat.zero_lt_of_lt small),
    Nat.div_eq_of_lt small, Nat.zero_add]

theorem eq_evmGetMod {a b r : Word} {q : Nat} (exact : a.toNat = q * b.toNat + r.toNat) (small : r.toNat < b.toNat) :
    r = evmGetMod a b := by
  apply BitVec.eq_of_toNat_eq
  rw [toNat_evmGetMod, if_neg (Nat.ne_zero_of_lt small), exact, Nat.add_comm, Nat.add_mul_mod_self_right,
    Nat.mod_eq_of_lt small]

theorem word_quotient {a b : Word} {q : Inst} (h : q.val.toNat = a.toNat / b.toNat) :
    word (quad q (int 0) (int 0) (int 0)) = evmGetDiv a b := by
  apply BitVec.eq_of_toNat_eq
  rw [toNat_word_one rfl rfl rfl, toNat_evmGetDiv]
  exact h

theorem word_remainder {a b : Word} {r : Inst} (h : r.val.toNat = if b.toNat = 0 then 0 else a.toNat % b.toNat) :
    word (quad r (int 0) (int 0) (int 0)) = evmGetMod a b := by
  apply BitVec.eq_of_toNat_eq
  rw [toNat_word_one rfl rfl rfl, toNat_evmGetMod]
  exact h

/-! ## Guards -/

theorem cmp_val (p : Predicate) (a b : Inst) : (cmp p a b).val = 0 ↔ p.holds a.val b.val = false := by
  rw [cmp, Inst.val_run]
  cases p.holds a.val b.val <;> decide

theorem isZero_val (b : Inst) : (isZero b).val = 0 ↔ b.val ≠ 0 := (cmp_val .eq b (int 0)).trans beq_eq_false_iff_ne

theorem safe_nonzero (b : Inst) : (safe b).val ≠ 0 := by
  rw [safe, select, Inst.val_run]
  split
  · next h => exact (isZero_val b).mp h
  · exact (by decide : (1 : BitVec 64) ≠ 0)

theorem safe_val {b : Inst} (nonzero : b.val ≠ 0) : (safe b).val = b.val := if_pos ((isZero_val b).mpr nonzero)

theorem guarded_zero {b : Inst} (zero : b.val = 0) (r : Inst) : (select (isZero b) (int 0) r).val = 0 :=
  if_neg fun h => (isZero_val b).mp h zero

theorem guarded_nonzero {b : Inst} (nonzero : b.val ≠ 0) (r : Inst) : (select (isZero b) (int 0) r).val = r.val :=
  if_pos ((isZero_val b).mpr nonzero)

theorem hasUpper_val (x : U256Inst) : (hasUpper x).val = 0 ↔ (x 1).val = 0 ∧ (x 2).val = 0 ∧ (x 3).val = 0 := by
  refine (cmp_val .ne _ (int 0)).trans (bne_eq_false_iff_eq.trans ?_)
  exact BitVec.or_eq_zero_iff.trans (and_congr_right' BitVec.or_eq_zero_iff)

theorem toNat_word_of_hasUpper {x : U256Inst} (h : (hasUpper x).val = 0) : (word x).toNat = (x 0).val.toNat := by
  obtain ⟨h1, h2, h3⟩ := (hasUpper_val x).mp h
  exact toNat_word_one h1 h2 h3

theorem le_word_of_hasUpper {x : U256Inst} (h : (hasUpper x).val ≠ 0) : 2 ^ 64 ≤ (word x).toNat := by
  have nonzero : (x 1).val.toNat ≠ 0 ∨ (x 2).val.toNat ≠ 0 ∨ (x 3).val.toNat ≠ 0 := by
    by_contra none
    push Not at none
    exact h ((hasUpper_val x).mpr ⟨BitVec.eq_of_toNat_eq none.1, BitVec.eq_of_toNat_eq none.2.1,
      BitVec.eq_of_toNat_eq none.2.2⟩)
  rw [toNat_word, value_four]
  simp only [vals]
  omega

/-! ## The paths -/

abbrev Exact (w : Word) (z : Operand) : Prop := z.word = w ∧ z.Sound

theorem exact_full {x : U256Inst} {w : Word} (h : word x = w) : Exact w (.full x) := ⟨h, Operand.sound_full x⟩

theorem handleDivU64Divisor_gives (a : Operand) {d : BitVec 64} (nonzero : d ≠ 0) :
    Gives (handleDivU64Divisor a d) (Exact (evmGetDiv a.word (d.setWidth 256))) := by
  refine (cascade_gives (extractU256Operand a) (d := int d) nonzero).bind fun z ⟨exact, small⟩ => .pure (exact_full ?_)
  refine eq_evmGetDiv (r := z.2.val.toNat) ?_ ?_
  · rw [toNat_setWidth]
    exact exact
  · rw [toNat_setWidth]
    exact small

theorem handleModU64Divisor_gives (a : Operand) {d : BitVec 64} (nonzero : d ≠ 0) :
    Gives (handleModU64Divisor a d) (Exact (evmGetMod a.word (d.setWidth 256))) := by
  refine (cascade_gives (extractU256Operand a) (d := int d) nonzero).bind fun z ⟨exact, small⟩ => .pure (exact_full ?_)
  have low : (word (quad z.2 (int 0) (int 0) (int 0))).toNat = z.2.val.toNat := toNat_word_one rfl rfl rfl
  refine eq_evmGetMod (q := (word z.1).toNat) ?_ ?_
  · rw [toNat_setWidth, low]
    exact exact
  · rw [toNat_setWidth, low]
    exact small

theorem udiv128By64_narrow (a : Inst) {b : Inst} (nonzero : b.val ≠ 0) : Gives (udiv128By64 (int 0) a b) fun z =>
      z.1.val.toNat = a.val.toNat / b.val.toNat ∧ z.2.val.toNat = a.val.toNat % b.val.toNat := by
  have positive : (int 0).val.toNat < b.val.toNat :=
    Nat.pos_of_ne_zero fun zero => nonzero (BitVec.eq_of_toNat_eq zero)
  refine (udiv128By64_gives a positive).mono fun z ⟨exact, small⟩ => ?_
  rw [show (int 0).val.toNat = 0 from rfl, Nat.zero_mul, Nat.zero_add, Nat.add_comm, Nat.mul_comm] at exact
  exact ((Nat.div_mod_unique positive).mpr ⟨exact.symm, small⟩).imp Eq.symm Eq.symm

theorem udiv_gives (a : Inst) {b : Inst} (nonzero : b.val ≠ 0) :
    Gives (udiv a b) fun q => q.val.toNat = a.val.toNat / b.val.toNat :=
  (udiv128By64_narrow a nonzero).bind fun _ h => .pure h.1

theorem urem_gives (a : Inst) {b : Inst} (nonzero : b.val ≠ 0) :
    Gives (urem a b) fun r => r.val.toNat = a.val.toNat % b.val.toNat :=
  (udiv128By64_narrow a nonzero).bind fun _ h => .pure h.2

theorem guarded_udiv (a b : Inst) :
    Gives (udiv a (safe b)) fun q => (select (isZero b) (int 0) q).val.toNat = a.val.toNat / b.val.toNat := by
  refine (udiv_gives a (safe_nonzero b)).mono fun q quotient => ?_
  by_cases zero : b.val = 0
  · rw [guarded_zero zero, zero]
    exact (Nat.div_zero _).symm
  · rw [guarded_nonzero zero, quotient, safe_val zero]

theorem guarded_urem (a b : Inst) : Gives (urem a (safe b)) fun r => (select (isZero b) (int 0) r).val.toNat =
      if b.val.toNat = 0 then 0 else a.val.toNat % b.val.toNat := by
  refine (urem_gives a (safe_nonzero b)).mono fun r remainder => ?_
  by_cases zero : b.val = 0
  · rw [guarded_zero zero, zero]
    rfl
  · have positive : b.val.toNat ≠ 0 := fun h => zero (BitVec.eq_of_toNat_eq h)
    rw [guarded_nonzero zero, remainder, safe_val zero, if_neg positive]

theorem handleDivU64Dividend_gives (n : BitVec 64) (b : Operand) :
    Gives (handleDivU64Dividend n b) (Exact (evmGetDiv (n.setWidth 256) b.word)) := by
  refine (guarded_udiv (int n) _).bind fun q quotient => .pure (exact_full (word_quotient ?_))
  rw [toNat_setWidth, select, Inst.val_run]
  split
  · next low =>
    rw [quotient, Operand.word, toNat_word_of_hasUpper low]
    rfl
  · next upper =>
    have big : 2 ^ 64 ≤ b.word.toNat := le_word_of_hasUpper upper
    rw [Nat.div_eq_of_lt (Nat.lt_of_lt_of_le n.isLt big)]
    rfl

theorem handleModU64Dividend_gives (n : BitVec 64) (b : Operand) :
    Gives (handleModU64Dividend n b) (Exact (evmGetMod (n.setWidth 256) b.word)) := by
  refine (guarded_urem (int n) _).bind fun r remainder => .pure (exact_full (word_remainder ?_))
  rw [toNat_setWidth, select, Inst.val_run]
  split
  · next low =>
    rw [remainder, Operand.word, toNat_word_of_hasUpper low]
    rfl
  · next upper =>
    have big : 2 ^ 64 ≤ b.word.toNat := le_word_of_hasUpper upper
    rw [if_neg (by omega), Nat.mod_eq_of_lt (Nat.lt_of_lt_of_le n.isLt big)]
    rfl

theorem word_helperResult (w : Word) : word (helperResult w) = w := ofLimbs_limb w

theorem handleDivModGeneral_gives (a b : Operand) (wantQuotient : Bool) : Gives (handleDivModGeneral a b wantQuotient)
      (Exact ((if wantQuotient then evmGetDiv else evmGetMod) a.word b.word)) := by
  by_cases low : (hasUpper (extractU256Operand b)).val = 0
  case neg =>
    simp only [handleDivModGeneral, ne_eq, low, not_false_eq_true, if_true]
    exact .pure (exact_full (word_helperResult _))
  case pos =>
    simp only [handleDivModGeneral, ne_eq, low, not_true_eq_false, if_false]
    have one : b.word.toNat = (extractU256Operand b 0).val.toNat := toNat_word_of_hasUpper low
    refine (cascade_gives _ (safe_nonzero _)).bind fun z ⟨exact, small⟩ => ?_
    by_cases zero : (extractU256Operand b 0).val = 0
    · have none : b.word = 0 := by
        apply BitVec.eq_of_toNat_eq
        rw [one, zero]
        rfl
      rw [none]
      cases wantQuotient with
      | true =>
        refine .pure (exact_full ?_)
        show _ = evmGetDiv a.word 0
        rw [evmGetDiv, if_pos rfl]
        exact word_eq_iff.mpr fun i _ => (guarded_zero zero (z.1 i)).trans BitVec.extractLsb'_zero.symm
      | false =>
        refine .pure (exact_full ?_)
        exact word_remainder (a := a.word) (b := 0) (congrArg BitVec.toNat (guarded_zero zero z.2))
    · rw [safe_val zero, ← one] at exact small
      cases wantQuotient with
      | true =>
        refine .pure (exact_full (Eq.trans (word_congr fun i _ => guarded_nonzero zero (z.1 i)) ?_))
        exact eq_evmGetDiv exact small
      | false =>
        have limb : (word (quad (select (isZero (extractU256Operand b 0)) (int 0) z.2) (int 0) (int 0) (int 0))).toNat =
            z.2.val.toNat := (toNat_word_one rfl rfl rfl).trans (congrArg BitVec.toNat (guarded_nonzero zero z.2))
        refine .pure (exact_full (eq_evmGetMod (q := (word z.1).toNat) ?_ ?_))
        · rw [limb]
          exact exact
        · rw [limb]
          exact small

/-! ## Powers of two -/

theorem shiftAmount_pow (k : Nat) : shiftAmount (2 ^ k) = k := by
  induction k with
  | zero => rw [shiftAmount, if_neg (by decide)]
  | succ k ih =>
    have half : 2 ^ (k + 1) / 2 = 2 ^ k := by rw [Nat.pow_succ, Nat.mul_div_cancel _ (by decide)]
    rw [shiftAmount, if_pos (Nat.one_lt_two_pow (by omega)), half, ih]

theorem powerOfTwo_some {b : Operand} {d : Word} (h : powerOfTwo b = some d) :
    b.word = d ∧ ∃ k < 256, d.toNat = 2 ^ k := by
  cases b with
  | const v =>
    rw [powerOfTwo] at h
    split at h
    · next power =>
      cases h
      have nonzero : (ofLimbs v).toNat ≠ 0 := fun zero => power.1 (BitVec.eq_of_toNat_eq zero)
      have one : (1 : Word) ≤ ofLimbs v := Nat.pos_of_ne_zero nonzero
      have mask := congrArg BitVec.toNat power.2
      rw [BitVec.toNat_and, BitVec.toNat_sub_of_le one] at mask
      obtain ⟨k, eq⟩ := (Nat.and_sub_one_eq_zero_iff_isPowerOfTwo nonzero).mp mask
      have inside : 2 ^ k < 2 ^ 256 := eq ▸ (ofLimbs v).isLt
      exact ⟨rfl, k, (Nat.pow_lt_pow_iff_right (by decide)).mp inside, eq⟩
    · exact absurd h (by simp)
  | _ => exact absurd h (by simp [powerOfTwo])

theorem handleShr_div (a : Operand) {d : Word} {k : Nat} (inside : k < 256) (power : d.toNat = 2 ^ k) :
    (handleShr (.const (quad (BitVec.ofNat 64 (shiftAmount d.toNat)) 0 0 0)) a).word = evmGetDiv a.word d := by
  rw [power, shiftAmount_pow, handleShr_const inside]
  apply BitVec.eq_of_toNat_eq
  rw [toNat_evmGetDiv, power, BitVec.toNat_ushiftRight, Nat.shiftRight_eq_div_pow]

theorem and_pred_eq (a : Word) {d : Word} {k : Nat} (power : d.toNat = 2 ^ k) : a &&& (d - 1) = evmGetMod a d := by
  have positive : 0 < d.toNat := power ▸ Nat.two_pow_pos k
  have one : (1 : Word) ≤ d := positive
  apply BitVec.eq_of_toNat_eq
  rw [toNat_evmGetMod, if_neg (Nat.ne_of_gt positive), BitVec.toNat_and, BitVec.toNat_sub_of_le one, power]
  exact Nat.and_two_pow_sub_one_eq_mod _ _

theorem handleShr_sound (shift value : Operand) : (handleShr shift value).Sound := by
  unfold handleShr
  split
  · split
    · exact Operand.sound_ofWord _
    · exact Operand.sound_ofWord _
  · exact Operand.sound_full _

/-! ## The handlers -/

theorem filter_constU64 {b : Operand} {d : BitVec 64} (h : b.constU64.filter (· ≠ 0) = some d) :
    b.word = d.setWidth 256 ∧ d ≠ 0 := by
  obtain ⟨const, nonzero⟩ := Option.filter_eq_some_iff.mp h
  exact ⟨Operand.word_constU64 const, of_decide_eq_true nonzero⟩

theorem handleDiv_gives {a b : Operand} (ha : a.Sound) (hb : b.Sound) :
    Gives (handleDiv a b) (Exact (evmGetDiv a.word b.word)) := by
  unfold handleDiv
  split
  · next n d =>
    rw [word_const, word_const, evmGetDiv]
    split
    · exact .pure ⟨word_ofWord _, Operand.sound_ofWord _⟩
    · exact .pure ⟨word_ofWord _, Operand.sound_ofWord _⟩
  · cases power : powerOfTwo b with
    | some d =>
      obtain ⟨rfl, k, inside, eq⟩ := powerOfTwo_some power
      exact .pure ⟨handleShr_div a inside eq, handleShr_sound _ _⟩
    | none =>
      dsimp only
      split
      · next both =>
        simp only [Operand.bothFitU64, Bool.and_eq_true, beq_iff_eq] at both
        refine (guarded_udiv _ _).bind fun q quotient => .pure ⟨word_quotient ?_, Operand.sound_one _⟩
        rw [quotient, ha.toNat_word both.1.1.1, hb.toNat_word both.1.1.2]
      · cases left : b.constU64.filter (· ≠ 0) with
        | some d =>
          obtain ⟨eq, nonzero⟩ := filter_constU64 left
          rw [eq]
          dsimp only
          split
          · exact handleDivU64Divisor_gives a nonzero
          · split
            · exact handleDivU64Divisor_gives a nonzero
            · next low =>
              refine (udiv_gives _ (b := int d) nonzero).bind fun q quotient => .pure (exact_full (word_quotient ?_))
              rw [quotient, toNat_setWidth, Operand.word, toNat_word_of_hasUpper (not_not.mp low)]
              rfl
        | none =>
          cases right : a.constU64 with
          | some n =>
            rw [Operand.word_constU64 right]
            exact handleDivU64Dividend_gives n b
          | none => exact handleDivModGeneral_gives a b true

theorem handleMod_gives {a b : Operand} (ha : a.Sound) (hb : b.Sound) :
    Gives (handleMod a b) (Exact (evmGetMod a.word b.word)) := by
  unfold handleMod
  split
  · next n d =>
    rw [word_const, word_const, evmGetMod]
    split
    · exact .pure ⟨word_ofWord _, Operand.sound_ofWord _⟩
    · exact .pure ⟨word_ofWord _, Operand.sound_ofWord _⟩
  · cases power : powerOfTwo b with
    | some d =>
      obtain ⟨rfl, k, inside, eq⟩ := powerOfTwo_some power
      have mask := handleBitwiseOp_exact .and ha (Operand.sound_ofWord (b.word - 1))
      rw [word_ofWord] at mask
      exact .pure ⟨mask.1.trans (and_pred_eq a.word eq), mask.2⟩
    | none =>
      dsimp only
      split
      · next both =>
        simp only [Operand.bothFitU64, Bool.and_eq_true, beq_iff_eq] at both
        refine (guarded_urem _ _).bind fun r remainder => .pure ⟨word_remainder ?_, Operand.sound_one _⟩
        rw [remainder, ha.toNat_word both.1.1.1, hb.toNat_word both.1.1.2]
      · cases left : b.constU64.filter (· ≠ 0) with
        | some d =>
          obtain ⟨eq, nonzero⟩ := filter_constU64 left
          rw [eq]
          exact handleModU64Divisor_gives a nonzero
        | none =>
          cases right : a.constU64 with
          | some n =>
            rw [Operand.word_constU64 right]
            exact handleModU64Dividend_gives n b
          | none => exact handleDivModGeneral_gives a b false

/-! ## Faults -/

theorem divWide_isSome {hi lo d : BitVec 64} : (divWide hi lo d).isSome ↔ d ≠ 0 ∧ hi.toNat < d.toNat := by
  rw [divWide]
  split
  · next fits => exact iff_of_true rfl ⟨fun zero => absurd (zero ▸ fits) (Nat.not_lt_zero _), fits⟩
  · next large => exact iff_of_false Bool.false_ne_true fun h => large h.2

/-- A division of the run that does not fault has a divisor other than zero, and a smaller high limb. -/
theorem udiv128By64_isSome (hi lo d : Inst) (carry : Bool) :
    (udiv128By64 hi lo d carry).isSome ↔ d.val ≠ 0 ∧ hi.val.toNat < d.val.toNat := by
  rw [udiv128By64, Option.isSome_map, divWide_isSome]

/-- The selected code of a division faults in the same cases, and otherwise leaves the quotient and the remainder. -/
theorem lowerEvmUdiv128By64Expr_exact (c : X86.Cpu) (hi lo d : Nat) :
    match divWide (c.regs hi) (c.regs lo) (c.regs d) with
    | none => X86.lowerEvmUdiv128By64Expr hi lo d c = none
    | some (q, r) => X86.Yields (X86.lowerEvmUdiv128By64Expr hi lo d) c fun x c' =>
        c'.regs x.1 = q ∧ c'.regs x.2 = r := by
  cases run : divWide (c.regs hi) (c.regs lo) (c.regs d) with
  | none => exact X86.lowerEvmUdiv128By64Expr_none run
  | some z =>
    refine (X86.lowerEvmUdiv128By64Expr_yields run).mono fun x c' h => ?_
    exact ⟨h.2.1.eq, h.2.2.eq⟩

/-- **Unsigned division and remainder are exact and do not fault.** The operands that `handleDiv` and `handleMod`
build have the quotient and the remainder, which are zero if the divisor is. Their runs end, and a division of a run
ends only with a divisor other than zero and a smaller high limb; so does its code. -/
theorem handleDiv_handleMod_exact (a b : Operand) (ha : a.Sound) (hb : b.Sound) :
    Gives (handleDiv a b) (fun z => z.word.toNat = if b.word = 0 then 0 else a.word.toNat / b.word.toNat) ∧
      Gives (handleMod a b) (fun z => z.word.toNat = if b.word = 0 then 0 else a.word.toNat % b.word.toNat) ∧
      (∀ hi lo d carry, (udiv128By64 hi lo d carry).isSome ↔ d.val ≠ 0 ∧ hi.val.toNat < d.val.toNat) ∧
      ∀ (c : X86.Cpu) (hi lo d : Nat), match divWide (c.regs hi) (c.regs lo) (c.regs d) with
        | none => X86.lowerEvmUdiv128By64Expr hi lo d c = none
        | some (q, r) => X86.Yields (X86.lowerEvmUdiv128By64Expr hi lo d) c fun x c' =>
            c'.regs x.1 = q ∧ c'.regs x.2 = r := by
  refine ⟨(handleDiv_gives ha hb).mono fun z h => ?_, (handleMod_gives ha hb).mono fun z h => ?_,
    udiv128By64_isSome, lowerEvmUdiv128By64Expr_exact⟩
  · rw [h.1, evmGetDiv]
    split
    · rfl
    · exact BitVec.toNat_udiv
  · rw [h.1, evmGetMod]
    split
    · rfl
    · exact BitVec.toNat_umod

theorem handleDiv_handleMod_exact_narrow :
    Gives (handleDiv (.full (quad (.run 7) (.run 1) (int 0) (int 0))) (.insts (quad (.run 0) (int 0) (int 0) (int 0)) .u64))
      (fun z => z.word.toNat =
        if (Operand.insts (quad (.run 0) (int 0) (int 0) (int 0)) .u64).word = 0 then 0
        else (Operand.full (quad (.run 7) (.run 1) (int 0) (int 0))).word.toNat /
          (Operand.insts (quad (.run 0) (int 0) (int 0) (int 0)) .u64).word.toNat) :=
  (handleDiv_handleMod_exact (.full (quad (.run 7) (.run 1) (int 0) (int 0)))
    (.insts (quad (.run 0) (int 0) (int 0) (int 0)) .u64) (Operand.sound_full _) (Operand.sound_one _)).1

end Dtvm.Jit.Mir
