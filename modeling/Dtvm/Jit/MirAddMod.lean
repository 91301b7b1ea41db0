import Dtvm.Jit.MirCompare

/-!
# `ADDMOD`

If the top limb of the modulus is not zero, and the top limbs of both terms are no greater, then both terms are
less than twice the modulus. One subtraction brings each below the modulus, and one brings their sum below it;
that the sum has left the word shows in its being less than a term. All else goes to the run-time helper.
-/

namespace Dtvm.Jit.Mir

open Limb Handler

def u256UnsignedLT (x y : U256Inst) : Inst := handleCompareGT_LT .ult .ult x y

def normalized (term modulus : Operand) : Build U256Inst := do
  let x := extractU256Operand term
  let diff ← handleSub term modulus
  pure fun i => select (u256UnsignedLT x (extractU256Operand modulus)) (x i) (extractU256Operand diff i)

def fastEligible (augend addend modulus : U256Inst) : Inst :=
  Mir.and (Mir.and (cmp .ne (modulus 3) (int 0)) (cmp .ule (augend 3) (modulus 3))) (cmp .ule (addend 3) (modulus 3))

def addBelow (augend addend modulus : Operand) : Build U256Inst := do
  let normAugend ← normalized augend modulus
  let normAddend ← normalized addend modulus
  let sumOp ← handleAdd (.full normAugend) (.full normAddend)
  let sum := extractU256Operand sumOp
  let overflow := u256UnsignedLT sum normAugend
  let sumSubMod ← handleSub sumOp (.full (extractU256Operand modulus))
  let notBorrow := Mir.xor (u256UnsignedLT sum (extractU256Operand modulus)) (int 1)
  pure fun i => select (Mir.or overflow notBorrow) (extractU256Operand sumSubMod i) (sum i)

def handleAddMod (augend addend modulus : Operand) : Build Operand :=
  match augend, addend, modulus with
  | .const a, .const b, .const m => pure (.ofWord (addmodOp (ofLimbs a) (ofLimbs b) (ofLimbs m)))
  | augend, addend, modulus =>
    if (fastEligible (extractU256Operand augend) (extractU256Operand addend) (extractU256Operand modulus)).val ≠ 0 then do
      let result ← addBelow augend addend modulus
      pure (.full result)
    else pure (.full (helperResult (addmodOp augend.word addend.word modulus.word)))

theorem u256UnsignedLT_val (x y : U256Inst) :
    (u256UnsignedLT x y).val = bit (decide ((word x).toNat < (word y).toNat)) := handleCompareImpl_val .lt x y

theorem lt_double {x m : U256Inst} (positive : (m 3).val.toNat ≠ 0) (le : (x 3).val.toNat ≤ (m 3).val.toNat) :
    (word x).toNat < 2 * (word m).toNat := by
  have := (x 0).val.isLt
  have := (x 1).val.isLt
  have := (x 2).val.isLt
  simp only [toNat_word, value_four, vals]
  omega

theorem fastEligible_val {x y m : U256Inst} (h : (fastEligible x y m).val ≠ 0) :
    (word x).toNat < 2 * (word m).toNat ∧ (word y).toNat < 2 * (word m).toNat := by
  have flags : (fastEligible x y m).val = bit (((m 3).val != 0 && (x 3).val.ule (m 3).val) && (y 3).val.ule (m 3).val) :=
    and_bit (and_bit rfl rfl) rfl
  have all : (((m 3).val != 0 && (x 3).val.ule (m 3).val) && (y 3).val.ule (m 3).val) = true := by
    by_contra none
    rw [flags, Bool.eq_false_of_not_eq_true none] at h
    exact h rfl
  rw [Bool.and_eq_true, Bool.and_eq_true, bne_iff_ne] at all
  obtain ⟨⟨nonzero, hx⟩, hy⟩ := all
  have positive : (m 3).val.toNat ≠ 0 := fun zero => nonzero (BitVec.eq_of_toNat_eq zero)
  exact ⟨lt_double positive (of_decide_eq_true hx), lt_double positive (of_decide_eq_true hy)⟩

theorem normalized_gives {term modulus : Operand} (small : term.word.toNat < 2 * modulus.word.toNat) :
    Gives (normalized term modulus) fun x => (word x).toNat = term.word.toNat % modulus.word.toNat := by
  refine (handleSub_gives term modulus).bind fun diff ⟨difference, _⟩ => .pure ?_
  rw [word_select, u256UnsignedLT_val]
  by_cases below : term.word.toNat < modulus.word.toNat
  · rw [Operand.word, Operand.word] at below ⊢
    rw [decide_eq_true below, Nat.mod_eq_of_lt below]
    rfl
  · have above : modulus.word.toNat ≤ term.word.toNat := Nat.le_of_not_lt below
    rw [Nat.mod_eq_sub_mod above, Nat.mod_eq_of_lt (by omega), ← BitVec.toNat_sub_of_le above, ← difference]
    rw [Operand.word, Operand.word] at below
    rw [decide_eq_false below]
    rfl

/-- The sum of two words below the modulus, brought below it: whether the sum has left the word or not, it is the
modulus that is too much. -/
theorem reduced_sum {p q m sum : Word} (hp : p.toNat < m.toNat) (hq : q.toNat < m.toNat) (total : sum = p + q) :
    (if sum.toNat < p.toNat ∨ ¬ sum.toNat < m.toNat then sum - m else sum).toNat = (p.toNat + q.toNat) % m.toNat := by
  have := m.isLt
  have wraps : sum.toNat = (p.toNat + q.toNat) % 2 ^ 256 := total ▸ BitVec.toNat_add p q
  by_cases below : p.toNat + q.toNat < m.toNat
  · rw [Nat.mod_eq_of_lt (by omega)] at wraps
    rw [if_neg (by omega), Nat.mod_eq_of_lt below, wraps]
  · rw [if_pos (by omega), Nat.mod_eq_sub_mod (by omega), Nat.mod_eq_of_lt (by omega), BitVec.toNat_sub]
    omega

theorem useSumSubMod_val (x y z : U256Inst) :
    (Mir.or (u256UnsignedLT x y) (Mir.xor (u256UnsignedLT x z) (int 1))).val = 0 ↔
      ¬ ((word x).toNat < (word y).toNat ∨ ¬ (word x).toNat < (word z).toNat) := by
  rw [Mir.or, Mir.xor, Inst.val_run, Inst.val_run, u256UnsignedLT_val, u256UnsignedLT_val]
  by_cases less : (word x).toNat < (word y).toNat <;> by_cases below : (word x).toNat < (word z).toNat <;>
    simp [less, below, bit, int]

theorem addBelow_gives {a b m : Operand} (ha : a.word.toNat < 2 * m.word.toNat) (hb : b.word.toNat < 2 * m.word.toNat) :
    Gives (addBelow a b m) fun x => (word x).toNat = (a.word.toNat + b.word.toNat) % m.word.toNat := by
  have positive : 0 < m.word.toNat := by omega
  refine (normalized_gives ha).bind fun p hp => (normalized_gives hb).bind fun q hq => ?_
  refine (handleAdd_gives (Operand.sound_full p) (Operand.sound_full q)).bind fun sum ⟨total, _⟩ => ?_
  refine (handleSub_gives sum _).bind fun diff ⟨difference, _⟩ => .pure ?_
  have below (n : Nat) {w : Word} (h : w.toNat = n % m.word.toNat) : w.toNat < m.word.toNat := by
    rw [h]
    exact Nat.mod_lt n positive
  have reduced := reduced_sum (below _ hp) (below _ hq) total
  rw [hp, hq, ← Nat.add_mod, ← hp] at reduced
  rw [word_select, if_congr (useSumSubMod_val _ _ _) rfl rfl, ite_not]
  rw [word_full] at difference
  exact (congrArg (fun w => (ite _ w sum.word).toNat) difference).trans reduced

/-- **`ADDMOD` is exact.** -/
theorem handleAddMod_exact (a b m : Operand) : Gives (handleAddMod a b m) fun z => z.Sound ∧
      z.word.toNat = if m.word = 0 then 0 else (a.word.toNat + b.word.toNat) % m.word.toNat := by
  have exact (a b m : Word) : (addmodOp a b m).toNat = if m = 0 then 0 else (a.toNat + b.toNat) % m.toNat := by
    rw [addmodOp]
    split
    · rfl
    · next nonzero =>
      have positive : m.toNat ≠ 0 := fun zero => nonzero (BitVec.eq_of_toNat_eq zero)
      have := Nat.mod_lt (a.toNat + b.toNat) (Nat.pos_of_ne_zero positive)
      have := m.isLt
      rw [BitVec.toNat_ofNat, Nat.mod_eq_of_lt (by omega)]
  unfold handleAddMod
  split
  · refine .pure ⟨Operand.sound_ofWord _, ?_⟩
    rw [word_ofWord]
    exact exact _ _ _
  · split
    · next eligible =>
      obtain ⟨ha, hb⟩ := fastEligible_val eligible
      refine (addBelow_gives ha hb).bind fun x h => .pure ⟨Operand.sound_full x, ?_⟩
      have nonzero : m.word ≠ 0 := by
        intro zero
        rw [Operand.word] at zero
        rw [zero] at ha
        exact Nat.not_lt_zero _ ha
      rw [if_neg nonzero]
      exact h
    · refine .pure ⟨Operand.sound_full _, ?_⟩
      rw [word_full, word_helperResult]
      exact exact _ _ _

end Dtvm.Jit.Mir
