import Dtvm.Jit.MirDivision

/-!
# Signed division

A positive constant divisor of one limb divides the absolute value of the dividend, and the result is negated
again if the dividend was negative; the lowest word is its own negation, and as an unsigned word it is its
absolute value. Constants are folded by `intx::sdivrem`, and every other pair of operands goes to the run-time
helpers, of which `evmGetSDiv` works on absolute values too.
-/

namespace Dtvm.Jit.Mir

open Limb

/-! ## The builder -/

/-- `intx::sdivrem`: the quotient is truncated, and the remainder has the sign of the dividend. -/
structure Sdivrem where
  quot : Word → Word → Word
  rem : Word → Word → Word
  quot_eq : ∀ a b, b ≠ 0 → quot a b = BitVec.ofInt 256 (a.toInt.tdiv b.toInt)
  rem_eq : ∀ a b, b ≠ 0 → rem a b = BitVec.ofInt 256 (a.toInt.tmod b.toInt)

def Sdivrem.truncating : Sdivrem where
  quot a b := BitVec.ofInt 256 (a.toInt.tdiv b.toInt)
  rem a b := BitVec.ofInt 256 (a.toInt.tmod b.toInt)
  quot_eq _ _ _ := rfl
  rem_eq _ _ _ := rfl

def negate (a : Operand) : Build Operand := handleAddU64Const (handleNot a) 1

def signBit (a : Operand) : Inst := cmp .slt (extractU256Operand a 3) (int 0)

def bySign (sign : Inst) (negative positive : Operand) : Operand :=
  .full fun i => select sign (extractU256Operand negative i) (extractU256Operand positive i)

/-- A division of the absolute value, with the sign of the dividend. -/
def signedU64 (divide : Operand → BitVec 64 → Build Operand) (dividend : Operand) (divisor : BitVec 64) : Build Operand := do
  let abs ← negate dividend
  let unsigned ← divide (bySign (signBit dividend) abs dividend) divisor
  let negated ← negate unsigned
  pure (bySign (signBit dividend) negated unsigned)

def evmGetSDiv (dividend divisor : Word) : Word :=
  if divisor = 0 then 0
  else
    let isDividendNegative := dividend >>> 255 != 0
    let isDivisorNegative := divisor >>> 255 != 0
    let absDividend := if isDividendNegative then ~~~dividend + 1 else dividend
    let absDivisor := if isDivisorNegative then ~~~divisor + 1 else divisor
    let absResult := absDividend / absDivisor
    if isDividendNegative != isDivisorNegative then ~~~absResult + 1 else absResult

def evmGetSMod (intx : Sdivrem) (dividend divisor : Word) : Word :=
  if divisor = 0 then 0 else intx.rem dividend divisor

/-- A constant divisor of one limb that is positive as a signed limb too. -/
def constI63 (divisor : Operand) : Option (BitVec 64) := divisor.constU64.filter fun d => d ≠ 0 ∧ d.toNat ≤ 2 ^ 63 - 1

def handleSDiv (intx : Sdivrem) (dividend divisor : Operand) : Build Operand :=
  match dividend, divisor with
  | .const n, .const d => pure (if ofLimbs d = 0 then .ofWord 0 else .ofWord (intx.quot (ofLimbs n) (ofLimbs d)))
  | dividend, divisor =>
    match constI63 divisor with
    | some d => signedU64 handleDivU64Divisor dividend d
    | none => pure (.full (helperResult (evmGetSDiv dividend.word divisor.word)))

def handleSMod (intx : Sdivrem) (dividend divisor : Operand) : Build Operand :=
  match dividend, divisor with
  | .const n, .const d => pure (if ofLimbs d = 0 then .ofWord 0 else .ofWord (intx.rem (ofLimbs n) (ofLimbs d)))
  | dividend, divisor =>
    match constI63 divisor with
    | some d => signedU64 handleModU64Divisor dividend d
    | none => pure (.full (helperResult (evmGetSMod intx dividend.word divisor.word)))

/-! ## The meaning -/

/-- `SDIV`: the quotient truncated toward zero. -/
def sdivWord (a b : Word) : Word := if b = 0 then 0 else BitVec.ofInt 256 (a.toInt.tdiv b.toInt)

/-- `SMOD`: the remainder with the sign of the dividend. -/
def smodWord (a b : Word) : Word := if b = 0 then 0 else BitVec.ofInt 256 (a.toInt.tmod b.toInt)

theorem sdivWord_eq {a b : Word} (nonzero : b ≠ 0) : sdivWord a b = a.sdiv b := by
  rw [sdivWord, if_neg nonzero]
  apply BitVec.eq_of_toInt_eq
  rw [BitVec.toInt_ofInt, BitVec.toInt_sdiv]

theorem smodWord_eq {a b : Word} (nonzero : b ≠ 0) : smodWord a b = a.srem b := by
  rw [smodWord, if_neg nonzero, ← BitVec.toInt_srem, BitVec.ofInt_toInt]

/-! ## Signs -/

theorem negate_gives (a : Operand) : Gives (negate a) (Exact (-a.word)) := by
  refine (handleAddU64Const_gives (handleNot a) 1).mono fun z h => ⟨?_, h.2⟩
  rw [h.1, handleNot_word, BitVec.neg_eq_not_add]
  rfl

theorem msb_word (x : U256Inst) : (word x).msb = (x 3).val.msb := by
  rw [BitVec.msb_eq_getLsbD_last, getLsbD_word x (by decide), BitVec.msb_eq_getLsbD_last]

theorem signBit_val (a : Operand) : (signBit a).val = 0 ↔ a.word.msb = false := by
  refine (cmp_val .slt _ _).trans ?_
  rw [Operand.word, msb_word, ← BitVec.slt_zero_eq_msb]
  rfl

theorem word_bySign (a negative positive : Operand) :
    (bySign (signBit a) negative positive).word = if a.word.msb then negative.word else positive.word := by
  refine (word_select (signBit a) _ _).trans ?_
  by_cases sign : a.word.msb = false
  · rw [if_pos ((signBit_val a).mpr sign), sign]
    rfl
  · rw [if_neg (mt (signBit_val a).mp sign), Bool.eq_true_of_not_eq_false sign]
    rfl

theorem signedU64_gives {divide : Operand → BitVec 64 → Build Operand} {f : Word → Word} {d : BitVec 64}
    (divides : ∀ a, Gives (divide a d) (Exact (f a.word))) (a : Operand) :
    Gives (signedU64 divide a d) (Exact (if a.word.msb then -f (-a.word) else f a.word)) := by
  refine (negate_gives a).bind fun abs ⟨habs, _⟩ => ?_
  refine (divides _).bind fun unsigned ⟨hunsigned, _⟩ => ?_
  refine (negate_gives unsigned).bind fun negated ⟨hnegated, _⟩ => .pure ⟨?_, Operand.sound_full _⟩
  rw [word_bySign, hnegated, hunsigned, word_bySign, habs]
  cases a.word.msb <;> rfl

/-! ## The handlers -/

theorem shifted_sign {n : Nat} (v : BitVec (n + 1)) : (v >>> n != 0) = v.msb := by
  have zero : v >>> n = 0 ↔ v.toNat < 2 ^ n := by
    rw [← BitVec.toNat_inj, BitVec.toNat_ushiftRight, Nat.shiftRight_eq_div_pow]
    exact Nat.div_eq_zero_iff_lt (Nat.two_pow_pos n)
  rw [BitVec.msb_eq_decide, Bool.eq_iff_iff, bne_iff_ne, decide_eq_true_iff, ne_eq, zero, Nat.add_sub_cancel]
  exact Nat.not_lt

theorem evmGetSDiv_eq (a b : Word) : evmGetSDiv a b = sdivWord a b := by
  by_cases zero : b = 0
  · rw [evmGetSDiv, sdivWord, if_pos zero, if_pos zero]
  · rw [sdivWord_eq zero, evmGetSDiv, if_neg zero, BitVec.sdiv_eq]
    simp only [shifted_sign, ← BitVec.neg_eq_not_add, show (1 : Word) = 1#256 from rfl]
    cases a.msb <;> cases b.msb <;> rfl

theorem evmGetSMod_eq (intx : Sdivrem) (a b : Word) : evmGetSMod intx a b = smodWord a b := by
  rw [evmGetSMod, smodWord]
  split
  · rfl
  · next nonzero => exact intx.rem_eq a b nonzero

theorem constI63_some {b : Operand} {d : BitVec 64} (h : constI63 b = some d) :
    b.word = d.setWidth 256 ∧ d ≠ 0 ∧ b.word ≠ 0 ∧ b.word.msb = false := by
  obtain ⟨const, positive⟩ := Option.filter_eq_some_iff.mp h
  have nonzero : d ≠ 0 := (of_decide_eq_true positive).1
  have eq := Operand.word_constU64 const
  have bound := d.isLt
  refine ⟨eq, nonzero, fun zero => nonzero (BitVec.eq_of_toNat_eq ?_), ?_⟩
  · rw [← toNat_setWidth d, ← eq, zero]
    rfl
  · rw [eq, BitVec.msb_eq_decide, toNat_setWidth]
    exact decide_eq_false (by omega)

theorem handleSDiv_gives (intx : Sdivrem) (a b : Operand) :
    Gives (handleSDiv intx a b) (Exact (sdivWord a.word b.word)) := by
  unfold handleSDiv
  split
  · next n d =>
    rw [word_const, word_const, sdivWord]
    split
    · exact .pure ⟨word_ofWord _, Operand.sound_ofWord _⟩
    · next nonzero => exact .pure ⟨(word_ofWord _).trans (intx.quot_eq _ _ nonzero), Operand.sound_ofWord _⟩
  · cases small : constI63 b with
    | some d =>
      obtain ⟨eq, nonzero, divisor, sign⟩ := constI63_some small
      refine (signedU64_gives (f := (evmGetDiv · (d.setWidth 256))) (fun a => handleDivU64Divisor_gives a nonzero) a).mono
        fun z h => ⟨h.1.trans ?_, h.2⟩
      rw [sdivWord_eq divisor, BitVec.sdiv_eq, sign, ← eq]
      simp only [evmGetDiv, if_neg divisor]
      cases a.word.msb <;> rfl
    | none => exact .pure (exact_full ((word_helperResult _).trans (evmGetSDiv_eq _ _)))

theorem handleSMod_gives (intx : Sdivrem) (a b : Operand) :
    Gives (handleSMod intx a b) (Exact (smodWord a.word b.word)) := by
  unfold handleSMod
  split
  · next n d =>
    rw [word_const, word_const, smodWord]
    split
    · exact .pure ⟨word_ofWord _, Operand.sound_ofWord _⟩
    · next nonzero => exact .pure ⟨(word_ofWord _).trans (intx.rem_eq _ _ nonzero), Operand.sound_ofWord _⟩
  · cases small : constI63 b with
    | some d =>
      obtain ⟨eq, nonzero, divisor, sign⟩ := constI63_some small
      refine (signedU64_gives (f := (evmGetMod · (d.setWidth 256))) (fun a => handleModU64Divisor_gives a nonzero) a).mono
        fun z h => ⟨h.1.trans ?_, h.2⟩
      rw [smodWord_eq divisor, BitVec.srem_eq, sign, ← eq]
      simp only [evmGetMod, if_neg divisor]
      cases a.word.msb <;> rfl
    | none => exact .pure (exact_full ((word_helperResult _).trans (evmGetSMod_eq intx _ _)))

/-- **Signed division and remainder are exact.** The quotient is truncated toward zero, the remainder has the sign of
the dividend, both are zero if the divisor is, and the lowest word divided by minus one is itself. -/
theorem handleSDiv_handleSMod_exact (intx : Sdivrem) (a b : Operand) : Gives (handleSDiv intx a b) (fun z =>
        (b.word = 0 → z.word = 0) ∧ (b.word ≠ 0 → z.word = BitVec.ofInt 256 (a.word.toInt.tdiv b.word.toInt)) ∧
        (a.word = BitVec.intMin 256 → b.word = -1 → z.word = BitVec.intMin 256)) ∧ Gives (handleSMod intx a b) (fun z =>
        (b.word = 0 → z.word = 0) ∧ (b.word ≠ 0 → z.word.toInt = a.word.toInt.tmod b.word.toInt)) := by
  refine ⟨(handleSDiv_gives intx a b).mono fun z h => ⟨?_, ?_, ?_⟩, (handleSMod_gives intx a b).mono fun z h => ⟨?_, ?_⟩⟩
  · exact fun zero => h.1.trans (if_pos zero)
  · exact fun nonzero => h.1.trans (if_neg nonzero)
  · intro lowest minus
    rw [h.1, lowest, minus, sdivWord_eq (by decide), BitVec.sdiv_eq]
    decide +kernel
  · exact fun zero => h.1.trans (if_pos zero)
  · intro nonzero
    rw [h.1, smodWord_eq nonzero, BitVec.toInt_srem]

theorem handleSDiv_handleSMod_exact_intMin :
    Gives (handleSDiv .truncating (.full fun i => if i = 3 then .run (2 ^ 63) else .run 0) (.ofWord (-1))) fun z =>
      z.word = BitVec.intMin 256 :=
  (handleSDiv_handleSMod_exact .truncating (.full fun i => if i = 3 then .run (2 ^ 63) else .run 0)
    (.ofWord (-1))).1.mono fun _ h => h.2.2 (by decide +kernel) (word_ofWord _)

end Dtvm.Jit.Mir
