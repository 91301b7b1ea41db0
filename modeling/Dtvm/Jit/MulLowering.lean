import Dtvm.Jit.X86
import Mathlib.Tactic.LinearCombination

/-!
# The code of 256-bit products

`lowerEvmU256MulExpr` selects the code of a product of four limbs by four, truncated to four. Without the newer
instructions (`lowerEvmU256MulExprLegacy`) the ten partial products are added by columns, and each column counts
its carries. With them (`lowerEvmU256MulExprAdx`) they are added by rows: `ADCX` and `ADOX` have a carry flag each,
so the low and the high halves of a row ripple through the accumulator in two chains (`row_yields`).
-/

namespace Dtvm.Jit.X86

open Limb

/-! ## By columns -/

/-- A product in `RAX` and `RDX`. -/
def multiply (l r : Nat) : Emit Unit := do
  copyToRax l
  mul64 r

/-- `emitMul64`: the halves of a product, the high one if it is needed. -/
def emitMul64 (l r : Nat) (needHigh : Bool) : Emit (Nat × Nat) := do
  multiply l r
  let lo ← copyFromRax
  if needHigh then
    let hi ← copyFromRdx
    pure (lo, hi)
  else pure (lo, noRegister)

def emitAdd64NoCarry (l r : Nat) : Emit Nat := fastEmitInstRr add64 l r

def emitAdd64WithCarryCounter (column : Nat × Nat) (term : Nat) : Emit (Nat × Nat) := do
  let sum ← fastEmitInstRr add64 column.1 term
  let carry ← fastEmitInstRi adc64 column.2 0
  pure (sum, carry)

/-- `lowerEvmU256MulExprLegacy`: the registers of the four limbs. -/
def lowerEvmU256MulExprLegacy (a b : Nat → Nat) : Emit (Nat → Nat) := do
  let zeroReg ← x86MaterializeInt 0
  let (r0, h00) ← emitMul64 (a 0) (b 0) true
  let (l01, h01) ← emitMul64 (a 0) (b 1) true
  let (l10, h10) ← emitMul64 (a 1) (b 0) true
  let c ← emitAdd64WithCarryCounter (h00, zeroReg) l01
  let (r1, c1) ← emitAdd64WithCarryCounter c l10
  let (l02, h02) ← emitMul64 (a 0) (b 2) true
  let (l11, h11) ← emitMul64 (a 1) (b 1) true
  let (l20, h20) ← emitMul64 (a 2) (b 0) true
  let c ← emitAdd64WithCarryCounter (h01, zeroReg) h10
  let c ← emitAdd64WithCarryCounter c l02
  let c ← emitAdd64WithCarryCounter c l11
  let c ← emitAdd64WithCarryCounter c l20
  let (r2, c2) ← emitAdd64WithCarryCounter c c1
  let (l03, _) ← emitMul64 (a 0) (b 3) false
  let (l12, _) ← emitMul64 (a 1) (b 2) false
  let (l21, _) ← emitMul64 (a 2) (b 1) false
  let (l30, _) ← emitMul64 (a 3) (b 0) false
  let r3 ← emitAdd64NoCarry h02 h11
  let r3 ← emitAdd64NoCarry r3 h20
  let r3 ← emitAdd64NoCarry r3 l03
  let r3 ← emitAdd64NoCarry r3 l12
  let r3 ← emitAdd64NoCarry r3 l21
  let r3 ← emitAdd64NoCarry r3 l30
  let r3 ← emitAdd64NoCarry r3 c2
  pure (quad r0 r1 r2 r3)

section Columns

variable {c : Cpu}

abbrev Cpu.Has (c : Cpu) (r : Nat) (v : BitVec 64) : Prop := c.Holds noRegister r v

abbrev Cpu.Extends (c c' : Cpu) : Prop := c.Keeps noRegister c' noRegister

theorem multiply_yields {l r : Nat} {x y : BitVec 64} (hl : c.Has l x) (hr : c.Has r y) :
    Yields (multiply l r) c fun _ c' => c.Extends c' ∧ c'.rax = x * y ∧ c'.rdx = mulHigh x y := by
  refine .next rfl ⟨(), _, rfl, ?_, ?_, ?_⟩
  · exact ((c.keeps_setRax _ _).trans (Cpu.keeps_setRax _ _ _)).trans
      ((Cpu.keeps_setRdx _ _ _).trans (Cpu.keeps_setFlags _ _ _))
  · exact congrArg₂ (· * ·) hl.eq hr.eq
  · exact congrArg₂ mulHigh hl.eq hr.eq

theorem emitMul64_yields {l r : Nat} {x y : BitVec 64} (hl : c.Has l x) (hr : c.Has r y) (needHigh : Bool) :
    Yields (emitMul64 l r needHigh) c fun t c' => c.Extends c' ∧ c'.Has t.1 (x * y) ∧
      (needHigh = true → c'.Has t.2 (mulHigh x y)) := by
  refine (multiply_yields hl hr).bind fun _ c' ⟨keeps, rax, rdx⟩ => ?_
  rw [← rax, ← rdx]
  cases needHigh with
  | true =>
    refine (copies_yield c'.next_pos).mono fun t c'' ⟨keeps', _, lo, hi⟩ => ?_
    exact ⟨keeps.trans keeps', lo, fun _ => hi⟩
  | false =>
    refine .next rfl (.pure ⟨keeps.trans (c'.keeps_define _ _), c'.holds_define c'.next_pos _, ?_⟩)
    exact fun no => absurd no Bool.false_ne_true

theorem emitAdd64NoCarry_yields {l r : Nat} {x y : BitVec 64} (hl : c.Has l x) (hr : c.Has r y) :
    Yields (emitAdd64NoCarry l r) c fun t c' => c.Extends c' ∧ c'.Has t (x + y) := by
  refine (fastEmitInstRr_yields add64 l r c.next_pos).mono fun t c' ⟨keeps, _, holds, _⟩ => ⟨keeps, ?_⟩
  rw [hl.eq, hr.eq] at holds
  have sum : (add64 c.flags x y).1 = x + y := BitVec.add_zero _
  rwa [sum] at holds

theorem emitAdd64WithCarryCounter_yields {k : Nat × Nat} {term : Nat} {s n x : BitVec 64} (hs : c.Has k.1 s)
    (hn : c.Has k.2 n) (hx : c.Has term x) : Yields (emitAdd64WithCarryCounter k term) c fun t c' => c.Extends c' ∧
      c'.Has t.1 (count (s, n) x).1 ∧ c'.Has t.2 (count (s, n) x).2 := by
  refine (fastEmitInstRr_yields add64 k.1 term c.next_pos).bind fun sum c' ⟨keeps, _, holds, flags, _⟩ => ?_
  refine (fastEmitInstRi_yields adc64 k.2 0 c'.next_pos).bind fun carry c'' ⟨keeps', _, holds'⟩ => ?_
  rw [hs.eq, hx.eq] at holds flags
  rw [(hn.keep keeps).eq, flags] at holds'
  refine .pure ⟨keeps.trans keeps', holds.keep keeps', ?_⟩
  have counted : (adc64 (add64 c.flags s x).2 n 0).1 = (count (s, n) x).2 :=
    congrArg (· + _) (BitVec.add_zero n)
  rwa [counted] at holds'

def Cpu.Knows (c : Cpu) (known : List (Nat × BitVec 64)) : Prop := ∀ k ∈ known, c.Has k.1 k.2

theorem Cpu.Knows.learn {c' : Cpu} {known : List (Nat × BitVec 64)} (h : c.Knows known) (keeps : c.Extends c')
    {r : Nat} {v : BitVec 64} (new : c'.Has r v) : c'.Knows ((r, v) :: known) :=
  List.forall_mem_cons.mpr ⟨new, fun k mem => (h k mem).keep keeps⟩

section Known

variable {known : List (Nat × BitVec 64)} {β : Type} {R : β → Cpu → Prop}

variable {f : Nat × Nat → Emit β}

theorem Cpu.Knows.mulWide (h : c.Knows known) {l r : Nat} (x y : BitVec 64) (hl : (l, x) ∈ known) (hr : (r, y) ∈ known)
    (rest : ∀ lo hi c', c'.Knows ((lo, x * y) :: (hi, mulHigh x y) :: known) → Yields (f (lo, hi)) c' R) :
    Yields (emitMul64 l r true >>= f) c R := by
  refine (emitMul64_yields (h _ hl) (h _ hr) true).bind fun t c' ⟨keeps, lo, hi⟩ => ?_
  exact rest t.1 t.2 c' ((h.learn keeps (hi rfl)).learn (.refl _ _) lo)

theorem Cpu.Knows.mulLow (h : c.Knows known) {l r : Nat} (x y : BitVec 64) (hl : (l, x) ∈ known) (hr : (r, y) ∈ known)
    (rest : ∀ lo hi c', c'.Knows ((lo, x * y) :: known) → Yields (f (lo, hi)) c' R) :
    Yields (emitMul64 l r false >>= f) c R := by
  refine (emitMul64_yields (h _ hl) (h _ hr) false).bind fun t c' ⟨keeps, lo, _⟩ => ?_
  exact rest t.1 t.2 c' (h.learn keeps lo)

theorem Cpu.Knows.add (h : c.Knows known) {l r : Nat} (x y : BitVec 64) (hl : (l, x) ∈ known)
    (hr : (r, y) ∈ known) {f : Nat → Emit β} (rest : ∀ t c', c'.Knows ((t, x + y) :: known) → Yields (f t) c' R) :
    Yields (emitAdd64NoCarry l r >>= f) c R := by
  refine (emitAdd64NoCarry_yields (h _ hl) (h _ hr)).bind fun t c' ⟨keeps, sum⟩ => ?_
  exact rest t c' (h.learn keeps sum)

theorem Cpu.Knows.count (h : c.Knows known) {k : Nat × Nat} {term : Nat} (column : BitVec 64 × BitVec 64)
    (x : BitVec 64) (hs : (k.1, column.1) ∈ known) (hn : (k.2, column.2) ∈ known) (hx : (term, x) ∈ known)
    (rest : ∀ s n next c', next = Limb.count column x → c'.Knows ((s, next.1) :: (n, next.2) :: known) →
      Yields (f (s, n)) c' R) : Yields (emitAdd64WithCarryCounter k term >>= f) c R := by
  refine (emitAdd64WithCarryCounter_yields (h _ hs) (h _ hn) (h _ hx)).bind fun t c' ⟨keeps, sum, carry⟩ => ?_
  exact rest t.1 t.2 _ c' rfl ((h.learn keeps carry).learn (.refl _ _) sum)

end Known

end Columns

def columnProduct (a b : Nat → BitVec 64) : Nat → BitVec 64 :=
  let c1 := column (mulHigh (a 0) (b 0)) [a 0 * b 1, a 1 * b 0]
  let c2 := column (mulHigh (a 0) (b 1)) [mulHigh (a 1) (b 0), a 0 * b 2, a 1 * b 1, a 2 * b 0, c1.2]
  quad (a 0 * b 0) c1.1 c2.1 (mulHigh (a 0) (b 2) + mulHigh (a 1) (b 1) + mulHigh (a 2) (b 0) + a 0 * b 3 +
    a 1 * b 2 + a 2 * b 1 + a 3 * b 0 + c2.2)

/-- The ten partial products that a truncated product keeps. -/
theorem value_truncated (x y : Nat → BitVec 64) {v : Nat → BitVec 64} (excess : Nat)
    (eq : value 4 v + 2 ^ 256 * excess = (x 0).toNat * (y 0).toNat +
      2 ^ 64 * ((x 0).toNat * (y 1).toNat + (x 1).toNat * (y 0).toNat) +
      2 ^ 128 * ((x 0).toNat * (y 2).toNat + (x 1).toNat * (y 1).toNat + (x 2).toNat * (y 0).toNat) +
      2 ^ 192 * ((x 0).toNat * (y 3).toNat + (x 1).toNat * (y 2).toNat + (x 2).toNat * (y 1).toNat +
        (x 3).toNat * (y 0).toNat)) : value 4 v = value 4 x * value 4 y % 2 ^ 256 := by
  have total : value 4 x * value 4 y = value 4 v + 2 ^ 256 * (excess + ((x 1).toNat * (y 3).toNat +
      (x 2).toNat * (y 2).toNat + (x 3).toNat * (y 1).toNat + 2 ^ 64 * ((x 2).toNat * (y 3).toNat +
      (x 3).toNat * (y 2).toNat) + 2 ^ 128 * ((x 3).toNat * (y 3).toNat))) := by
    rw [value_four x, value_four y]
    linear_combination eq.symm
  rw [total, Nat.add_mul_mod_self_left, Nat.mod_eq_of_lt (value_lt 4 v)]

theorem value_columnProduct (a b : Nat → BitVec 64) :
    value 4 (columnProduct a b) = value 4 a * value 4 b % 2 ^ 256 := by
  have p (i j : Nat) := toNat_mul (a i) (b j)
  rw [columnProduct]
  have first := toNat_column (mulHigh (a 0) (b 0)) [a 0 * b 1, a 1 * b 0] (by simp)
  generalize column (mulHigh (a 0) (b 0)) [a 0 * b 1, a 1 * b 0] = c1 at *
  have second := toNat_column (mulHigh (a 0) (b 1)) [mulHigh (a 1) (b 0), a 0 * b 2, a 1 * b 1, a 2 * b 0, c1.2]
    (by simp)
  generalize column (mulHigh (a 0) (b 1)) [mulHigh (a 1) (b 0), a 0 * b 2, a 1 * b 1, a 2 * b 0, c1.2] = c2 at *
  simp only [List.map_cons, List.map_nil, List.sum_cons, List.sum_nil] at first second
  -- The last limb drops its carries.
  obtain ⟨k, third⟩ : ∃ k, (mulHigh (a 0) (b 2) + mulHigh (a 1) (b 1) + mulHigh (a 2) (b 0) + a 0 * b 3 + a 1 * b 2 +
      a 2 * b 1 + a 3 * b 0 + c2.2).toNat + 2 ^ 64 * k = (mulHigh (a 0) (b 2)).toNat + (mulHigh (a 1) (b 1)).toNat +
      (mulHigh (a 2) (b 0)).toNat + (a 0 * b 3).toNat + (a 1 * b 2).toNat + (a 2 * b 1).toNat + (a 3 * b 0).toNat +
      c2.2.toNat := by
    simp only [BitVec.toNat_add, Nat.mod_add_mod]
    exact ⟨_, Nat.mod_add_div _ _⟩
  refine value_truncated a b (k + (mulHigh (a 0) (b 3)).toNat + (mulHigh (a 1) (b 2)).toNat +
    (mulHigh (a 2) (b 1)).toNat + (mulHigh (a 3) (b 0)).toNat) ?_
  rw [value_four]
  simp only [quad]
  linear_combination 2 ^ 64 * first + 2 ^ 128 * second + 2 ^ 192 * third + p 0 0 + 2 ^ 64 * (p 0 1 + p 1 0) +
    2 ^ 128 * (p 0 2 + p 1 1 + p 2 0) + 2 ^ 192 * (p 0 3 + p 1 2 + p 2 1 + p 3 0)

variable {c : Cpu} {m : Mulx}

/-- **The code by columns multiplies.** -/
theorem lowerEvmU256MulExprLegacy_yields {a b : Nat → Nat} {x y : Nat → BitVec 64}
    (ha : ∀ i < 4, c.Has (a i) (x i)) (hb : ∀ i < 4, c.Has (b i) (y i)) :
    Yields (lowerEvmU256MulExprLegacy a b) c fun r c' => ∃ z : Nat → BitVec 64,
      (∀ i < 4, c'.Has (r i) (z i)) ∧ value 4 z = value 4 x * value 4 y % 2 ^ 256 := by
  have knows : c.Knows [(a 0, x 0), (a 1, x 1), (a 2, x 2), (a 3, x 3), (b 0, y 0), (b 1, y 1), (b 2, y 2),
      (b 3, y 3)] := by
    simp only [Cpu.Knows, List.forall_mem_cons]
    exact ⟨ha 0 (by decide), ha 1 (by decide), ha 2 (by decide), ha 3 (by decide), hb 0 (by decide),
      hb 1 (by decide), hb 2 (by decide), hb 3 (by decide), fun _ no => absurd no List.not_mem_nil⟩
  refine (x86MaterializeInt_yields 0 c.next_pos).bind fun zeroReg c ⟨keeps, _, holds⟩ => ?_
  replace knows := knows.learn keeps holds
  refine knows.mulWide (x 0) (y 0) (by simp) (by simp) fun r0 h00 c knows => ?_
  refine knows.mulWide (x 0) (y 1) (by simp) (by simp) fun l01 h01 c knows => ?_
  refine knows.mulWide (x 1) (y 0) (by simp) (by simp) fun l10 h10 c knows => ?_
  refine knows.count (mulHigh (x 0) (y 0), 0) (x 0 * y 1) (by simp) (by simp) (by simp) fun _ _ u1 c eu1 knows => ?_
  refine knows.count u1 (x 1 * y 0) (by simp) (by simp) (by simp) fun r1 c1 u2 c eu2 knows => ?_
  refine knows.mulWide (x 0) (y 2) (by simp) (by simp) fun l02 h02 c knows => ?_
  refine knows.mulWide (x 1) (y 1) (by simp) (by simp) fun l11 h11 c knows => ?_
  refine knows.mulWide (x 2) (y 0) (by simp) (by simp) fun l20 h20 c knows => ?_
  refine knows.count (mulHigh (x 0) (y 1), 0) (mulHigh (x 1) (y 0)) (by simp) (by simp) (by simp) fun _ _ v1 c ev1 knows => ?_
  refine knows.count v1 (x 0 * y 2) (by simp) (by simp) (by simp) fun _ _ v2 c ev2 knows => ?_
  refine knows.count v2 (x 1 * y 1) (by simp) (by simp) (by simp) fun _ _ v3 c ev3 knows => ?_
  refine knows.count v3 (x 2 * y 0) (by simp) (by simp) (by simp) fun _ _ v4 c ev4 knows => ?_
  refine knows.count v4 u2.2 (by simp) (by simp) (by simp) fun r2 c2 v5 c ev5 knows => ?_
  refine knows.mulLow (x 0) (y 3) (by simp) (by simp) fun l03 _ c knows => ?_
  refine knows.mulLow (x 1) (y 2) (by simp) (by simp) fun l12 _ c knows => ?_
  refine knows.mulLow (x 2) (y 1) (by simp) (by simp) fun l21 _ c knows => ?_
  refine knows.mulLow (x 3) (y 0) (by simp) (by simp) fun l30 _ c knows => ?_
  refine knows.add (mulHigh (x 0) (y 2)) (mulHigh (x 1) (y 1)) (by simp) (by simp) fun _ c knows => ?_
  refine knows.add _ (mulHigh (x 2) (y 0)) List.mem_cons_self (by simp) fun _ c knows => ?_
  refine knows.add _ (x 0 * y 3) List.mem_cons_self (by simp) fun _ c knows => ?_
  refine knows.add _ (x 1 * y 2) List.mem_cons_self (by simp) fun _ c knows => ?_
  refine knows.add _ (x 2 * y 1) List.mem_cons_self (by simp) fun _ c knows => ?_
  refine knows.add _ (x 3 * y 0) List.mem_cons_self (by simp) fun _ c knows => ?_
  refine knows.add _ v5.2 List.mem_cons_self (by simp) fun r3 c knows => ?_
  have limbs : columnProduct x y = quad (x 0 * y 0) u2.1 v5.1 (mulHigh (x 0) (y 2) + mulHigh (x 1) (y 1) +
      mulHigh (x 2) (y 0) + x 0 * y 3 + x 1 * y 2 + x 2 * y 1 + x 3 * y 0 + v5.2) := by
    subst eu1 eu2 ev1 ev2 ev3 ev4 ev5
    rfl
  refine .pure ⟨columnProduct x y, fun i inside => ?_, value_columnProduct x y⟩
  rw [limbs]
  match i, inside with
  | 0, _ => exact knows (r0, x 0 * y 0) (by simp)
  | 1, _ => exact knows (r1, u2.1) (by simp)
  | 2, _ => exact knows (r2, v5.1) (by simp)
  | 3, _ => exact knows (r3, _) List.mem_cons_self

/-! ## By rows -/

/-- `MulxSourceReg`, the register whose value is in `RDX`, and `DeadMulxHiReg`, which takes the high halves
that are not needed. -/
structure Mulx where
  source : Nat
  dead : Nat

/-- The source is copied to `RDX` unless it is there. -/
def loadSource (m : Mulx) (source : Nat) : Emit Mulx :=
  if m.source ≠ source then do
    copyToRdx source
    pure { m with source }
  else pure m

def makeDead (m : Mulx) (needHigh : Bool) : Emit Mulx :=
  if needHigh = false ∧ m.dead = noRegister then do
    let dead ← createReg
    pure { m with dead }
  else pure m

/-- The instruction, with a new register for the low half and one for the high half. -/
def emitHalves (m : Mulx) (operand : Nat) (needHigh : Bool) : Emit (Mulx × Nat × Nat) := do
  let lo ← createReg
  let hi ← if needHigh then createReg else pure m.dead
  mulx64 hi lo operand
  pure (m, lo, if needHigh then hi else noRegister)

/-- `emitMulx64`: the halves of a product, and the two registers. -/
def emitMulx64 (m : Mulx) (source operand : Nat) (needHigh : Bool) : Emit (Mulx × Nat × Nat) := do
  let m ← loadSource m source
  let m ← makeDead m needHigh
  emitHalves m operand needHigh

/-- The loop over `J` of a row, from a column on, for a number of columns. -/
def row (a : Nat) (b : Nat → Nat) (i : Nat) : Nat → Nat → Mulx → (Nat → Nat) → Emit (Mulx × (Nat → Nat))
  | _, 0, m, acc => pure (m, acc)
  | j, n + 1, m, acc => do
    let needHigh := decide (i + j + 1 < 4)
    let (m, lo, hi) ← emitMulx64 m a (b j) needHigh
    let low ← fastEmitInstRr adcx64 (acc (i + j)) lo
    let acc := Function.update acc (i + j) low
    if needHigh then
      let high ← fastEmitInstRr adox64 (acc (i + j + 1)) hi
      row a b i (j + 1) n m (Function.update acc (i + j + 1) high)
    else row a b i (j + 1) n m acc

/-- The loop over `I`. -/
def rows (a b : Nat → Nat) (zeroReg : Nat) : Nat → Nat → Mulx → (Nat → Nat) → Emit (Nat → Nat)
  | _, 0, _, acc => pure acc
  | i, n + 1, m, acc => do
    test64 zeroReg zeroReg
    let (m, acc) ← row (a i) b i 0 (4 - i) m acc
    rows a b zeroReg (i + 1) n m acc

/-- `lowerEvmU256MulExprAdx`: the registers of the four limbs. -/
def lowerEvmU256MulExprAdx (a b : Nat → Nat) : Emit (Nat → Nat) := do
  let zeroReg ← x86MaterializeInt 0
  let (m, r0, h00) ← emitMulx64 ⟨noRegister, noRegister⟩ (a 0) (b 0) true
  test64 zeroReg zeroReg
  let (m, acc) ← row (a 0) b 0 1 3 m (quad r0 h00 zeroReg zeroReg)
  rows a b zeroReg 1 3 m acc

/-- What `RDX` and the dead register are. -/
structure Mulx.Ok (m : Mulx) (c : Cpu) : Prop where
  dead : m.dead < c.next
  source : m.source = noRegister ∨ c.Live m.dead m.source ∧ c.rdx = c.regs m.source

theorem Mulx.Ok.keep {m' : Mulx} {c' : Cpu} (h : m.Ok c) (keeps : c.Keeps m.dead c' m'.dead)
    (source : m'.source = m.source) (dead : m'.dead < c'.next) (rdx : c'.rdx = c.rdx) : m'.Ok c' := by
  refine ⟨dead, ?_⟩
  rw [source]
  obtain none | ⟨live, eq⟩ := h.source
  · exact .inl none
  · obtain ⟨live', same⟩ := keeps _ live
    exact .inr ⟨live', by rw [rdx, same, eq]⟩

theorem loadSource_yields (ok : m.Ok c) {source : Nat} {x : BitVec 64} (hs : c.Holds m.dead source x) :
    Yields (loadSource m source) c fun m' c' =>
      c.Keeps m.dead c' m'.dead ∧ m'.Ok c' ∧ c'.rdx = x ∧ c'.flags = c.flags := by
  rw [loadSource]
  by_cases cached : m.source = source
  · rw [if_neg (not_not_intro cached)]
    refine .pure ⟨.refl _ _, ok, ?_, rfl⟩
    obtain none | ⟨_, eq⟩ := ok.source
    · exact absurd (cached.symm.trans none) (Nat.pos_iff_ne_zero.mp hs.live.pos)
    · rw [eq, cached, hs.eq]
  · rw [if_pos cached]
    refine .next rfl (.pure ⟨c.keeps_setRdx _ _, ⟨ok.dead, .inr ⟨?_, rfl⟩⟩, hs.eq, rfl⟩)
    exact ((c.keeps_setRdx _ _) source hs.live).1

theorem makeDead_yields (ok : m.Ok c) (needHigh : Bool) : Yields (makeDead m needHigh) c fun m' c' =>
      c.Keeps m.dead c' m'.dead ∧ m'.Ok c' ∧ c'.rdx = c.rdx ∧ c'.flags = c.flags ∧
        (needHigh = false → 0 < m'.dead) := by
  rw [makeDead]
  by_cases missing : needHigh = false ∧ m.dead = noRegister
  · rw [if_pos missing]
    have keeps : c.Keeps m.dead (c.define 0) c.next := by
      intro r live
      obtain ⟨live', same⟩ := c.keeps_define m.dead 0 r live
      exact ⟨⟨live'.pos, live'.used, Nat.ne_of_lt live.used⟩, same⟩
    refine .next rfl (.pure ⟨keeps, ?_, rfl, rfl, fun _ => c.next_pos⟩)
    exact ok.keep keeps rfl (Nat.lt_succ_self _) rfl
  · rw [if_neg missing]
    refine .pure ⟨.refl _ _, ok, rfl, rfl, fun low => Nat.pos_of_ne_zero fun none => missing ⟨low, none⟩⟩

theorem emitHalves_yields (ok : m.Ok c) (needHigh : Bool) (dead : needHigh = false → 0 < m.dead)
    {operand : Nat} {y : BitVec 64} (ho : c.Holds m.dead operand y) :
    Yields (emitHalves m operand needHigh) c fun t c' =>
      c.Keeps m.dead c' t.1.dead ∧ t.1.Ok c' ∧ c'.Holds t.1.dead t.2.1 (c.rdx * y) ∧
        (needHigh = true → c'.Holds t.1.dead t.2.2 (mulHigh c.rdx y)) ∧ c'.flags = c.flags := by
  have new : ¬ c.Live m.dead c.next := fun live => Nat.lt_irrefl _ live.used
  have created := c.keeps_define m.dead 0
  have lo := c.holds_define ok.dead 0
  cases needHigh with
  | true =>
    have old' : m.dead < (c.define 0).next := Nat.lt_succ_of_lt ok.dead
    have new' : ¬ c.Live m.dead (c.next + 1) := fun live => Nat.not_succ_lt_self live.used
    have created' := created.trans (Cpu.keeps_define _ m.dead 0)
    have hi := (c.define 0).holds_define old' 0
    rw [← (ho.keep created').eq]
    refine .next rfl (.next rfl (.next rfl (.pure ⟨?_, ?_, ?_, fun _ => ?_, rfl⟩)))
    · exact (created'.set new _).set new' _
    · exact ok.keep ((created'.set new _).set new' _) rfl (Nat.lt_succ_of_lt old') rfl
    · exact (Cpu.holds_set (lo.keep (Cpu.keeps_define _ m.dead 0)).live _).set (Nat.ne_of_lt (Nat.lt_succ_self _)) _
    · exact Cpu.holds_set (Cpu.Holds.set hi (Nat.ne_of_gt (Nat.lt_succ_self _)) _).live _
  | false =>
    have unused : ¬ c.Live m.dead m.dead := fun live => live.ne rfl
    rw [← (ho.keep created).eq]
    refine .next rfl (.next rfl (.next rfl (.pure ⟨?_, ?_, ?_, fun no => absurd no Bool.false_ne_true, rfl⟩)))
    · exact (created.set new _).set unused _
    · exact ok.keep ((created.set new _).set unused _) rfl (Nat.lt_succ_of_lt ok.dead) rfl
    · exact (Cpu.holds_set lo.live _).set lo.live.ne _

theorem emitMulx64_yields (ok : m.Ok c) {source operand : Nat} {x y : BitVec 64}
    (hs : c.Holds m.dead source x) (ho : c.Holds m.dead operand y) (needHigh : Bool) :
    Yields (emitMulx64 m source operand needHigh) c fun t c' => c.Keeps m.dead c' t.1.dead ∧ t.1.Ok c' ∧
      c'.Holds t.1.dead t.2.1 (x * y) ∧ (needHigh = true → c'.Holds t.1.dead t.2.2 (mulHigh x y)) ∧
      c'.flags = c.flags := by
  refine (loadSource_yields ok hs).bind fun m1 c1 ⟨keeps1, ok1, rdx1, flags1⟩ => ?_
  refine (makeDead_yields ok1 needHigh).bind fun m2 c2 ⟨keeps2, ok2, rdx2, flags2, dead⟩ => ?_
  have keeps := keeps1.trans keeps2
  refine (emitHalves_yields ok2 needHigh dead (ho.keep keeps)).mono fun t c' ⟨keeps3, ok3, lo, hi, flags3⟩ => ?_
  rw [rdx2, rdx1] at lo hi
  exact ⟨keeps.trans keeps3, ok3, lo, hi, by rw [flags3, flags2, flags1]⟩

def rowSum (y : Nat → BitVec 64) (i : Nat) : Nat → Nat → Nat
  | _, 0 => 0
  | j, n + 1 => (y j).toNat * 2 ^ (64 * (i + j)) + rowSum y i (j + 1) n

theorem value_step (v : Nat → BitVec 64) {k : Nat} (inside : k + 1 < 4) (x y : BitVec 64) (f : Flags) :
    value 4 (Function.update (Function.update v k (adc (v k) (x * y) f.cf).1) (k + 1)
        (adc (v (k + 1)) (mulHigh x y) f.of).1) + ((adc (v k) (x * y) f.cf).2.toNat * 2 ^ (64 * (k + 1)) +
        (adc (v (k + 1)) (mulHigh x y) f.of).2.toNat * 2 ^ (64 * (k + 1 + 1))) =
      value 4 v + x.toNat * (y.toNat * 2 ^ (64 * k)) + (f.cf.toNat * 2 ^ (64 * k) + f.of.toNat * 2 ^ (64 * (k + 1))) := by
  have product := toNat_mul x y
  have low := toNat_adc (v k) (x * y) f.cf
  have high := toNat_adc (v (k + 1)) (mulHigh x y) f.of
  have first := value_update (Nat.lt_of_succ_lt inside) v (adc (v k) (x * y) f.cf).1
  have second := value_update inside (Function.update v k (adc (v k) (x * y) f.cf).1)
    (adc (v (k + 1)) (mulHigh x y) f.of).1
  rw [Function.update_of_ne (Nat.succ_ne_self k)] at second
  linear_combination first + second + 2 ^ (64 * k) * low + 2 ^ (64 * (k + 1)) * high + 2 ^ (64 * k) * product

theorem value_last (v : Nat → BitVec 64) (x y : BitVec 64) (f : Flags) :
    value 4 (Function.update v 3 (adc (v 3) (x * y) f.cf).1) +
      2 ^ 256 * ((adc (v 3) (x * y) f.cf).2.toNat + (mulHigh x y).toNat + f.of.toNat) =
      value 4 v + x.toNat * (y.toNat * 2 ^ (64 * 3)) + (f.cf.toNat * 2 ^ (64 * 3) + f.of.toNat * 2 ^ (64 * (3 + 1))) := by
  have product := toNat_mul x y
  have low := toNat_adc (v 3) (x * y) f.cf
  have first := value_update (show 3 < 4 by decide) v (adc (v 3) (x * y) f.cf).1
  linear_combination first + 2 ^ 192 * low + 2 ^ 192 * product

def Cpu.Accumulates (c : Cpu) (dead : Nat) (acc : Nat → Nat) (v : Nat → BitVec 64) : Prop :=
  ∀ k < 4, c.Holds dead (acc k) (v k)

theorem Cpu.Accumulates.keep {c' : Cpu} {d d' : Nat} {acc : Nat → Nat} {v : Nat → BitVec 64}
    (h : c.Accumulates d acc v) (keeps : c.Keeps d c' d') : c'.Accumulates d' acc v :=
  fun k inside => (h k inside).keep keeps

theorem Cpu.Accumulates.update {d : Nat} {acc : Nat → Nat} {v : Nat → BitVec 64}
    (h : c.Accumulates d acc v) {r : Nat} {x : BitVec 64} (new : c.Holds d r x) (i : Nat) :
    c.Accumulates d (Function.update acc i r) (Function.update v i x) := by
  intro k inside
  by_cases here : k = i
  · rw [here, Function.update_self, Function.update_self]
    exact new
  · rw [Function.update_of_ne here, Function.update_of_ne here]
    exact h k inside

section Rows

variable {b : Nat → Nat} {y : Nat → BitVec 64}

/-- **A row.** What it adds to the accumulator, and the carries of its two chains. -/
theorem row_yields {a : Nat} {x : BitVec 64} {i : Nat} (n j : Nat) (columns : i + j + n = 4) {m : Mulx} {c : Cpu}
    {acc : Nat → Nat} {v : Nat → BitVec 64} (ok : m.Ok c) (ha : c.Holds m.dead a x)
    (hb : ∀ t < 4, c.Holds m.dead (b t) (y t)) (hv : c.Accumulates m.dead acc v) :
    Yields (row a b i j n m acc) c fun t c' => c.Keeps m.dead c' t.1.dead ∧ t.1.Ok c' ∧
      ∃ v' excess, c'.Accumulates t.1.dead t.2 v' ∧
        value 4 v' + 2 ^ 256 * excess = value 4 v + x.toNat * rowSum y i j n +
          (c.flags.cf.toNat * 2 ^ (64 * (i + j)) + c.flags.of.toNat * 2 ^ (64 * (i + j + 1))) := by
  induction n generalizing j m c acc v with
  | zero =>
    refine .pure ⟨.refl _ _, ok, v, c.flags.cf.toNat + c.flags.of.toNat * 2 ^ 64, hv, ?_⟩
    have top : 2 ^ (64 * (4 + 1)) = 2 ^ 256 * 2 ^ 64 := Nat.pow_add 2 256 64
    rw [show i + j = 4 from columns, rowSum, top]
    ring
  | succ n ih =>
    have inside : i + j < 4 := by omega
    rw [row]
    refine (emitMulx64_yields ok ha (hb j (by omega)) (decide (i + j + 1 < 4))).bind
      fun ⟨m1, lo, hi⟩ c1 ⟨keeps1, ok1, low, high, flags1⟩ => ?_
    dsimp only at keeps1 ok1 low high flags1 ⊢
    refine (fastEmitInstRr_yields adcx64 (acc (i + j)) lo ok1.dead).bind
      fun r c2 ⟨keeps2, dead2, sum, flags2, rdx2⟩ => ?_
    have keeps := keeps1.trans keeps2
    have ok2 := ok1.keep keeps2 rfl dead2 rdx2
    rw [((hv _ inside).keep keeps1).eq, low.eq, flags1] at sum flags2
    have hv2 := (hv.keep keeps).update sum (i + j)
    have hb2 := fun t lt => (hb t lt).keep keeps
    by_cases more : i + j + 1 < 4
    · rw [decide_eq_true more] at high ⊢
      simp only [if_true]
      refine (fastEmitInstRr_yields adox64 (Function.update acc (i + j) r (i + j + 1)) hi dead2).bind
        fun r' c3 ⟨keeps3, dead3, sum', flags3, rdx3⟩ => ?_
      rw [Function.update_of_ne (Nat.succ_ne_self _), ((hv _ more).keep keeps).eq,
        ((high rfl).keep keeps2).eq, flags2] at sum' flags3
      refine (ih (j + 1) (by omega) (ok2.keep keeps3 rfl dead3 rdx3) (ha.keep (keeps.trans keeps3))
        (fun t lt => (hb2 t lt).keep keeps3) ((hv2.keep keeps3).update sum' _)).mono
        fun t c' ⟨keeps', ok', v', excess, hv', eq⟩ => ⟨(keeps.trans keeps3).trans keeps', ok', v', excess, hv', ?_⟩
      have step := value_step v more x (y j) c.flags
      rw [flags3] at eq
      replace eq : value 4 v' + 2 ^ 256 * excess =
          value 4 (Function.update (Function.update v (i + j) (adc (v (i + j)) (x * y j) c.flags.cf).1) (i + j + 1)
            (adc (v (i + j + 1)) (mulHigh x (y j)) c.flags.of).1) + x.toNat * rowSum y i (j + 1) n +
          ((adc (v (i + j)) (x * y j) c.flags.cf).2.toNat * 2 ^ (64 * (i + j + 1)) +
            (adc (v (i + j + 1)) (mulHigh x (y j)) c.flags.of).2.toNat * 2 ^ (64 * (i + j + 1 + 1))) := eq
      rw [rowSum, Nat.mul_add]
      linear_combination eq + step
    · rw [decide_eq_false more]
      have last : i + j = 3 := by omega
      have done : n = 0 := by omega
      subst done
      refine .pure ⟨keeps, ok2, _, (adc (v 3) (x * y j) c.flags.cf).2.toNat + (mulHigh x (y j)).toNat +
        c.flags.of.toNat, hv2, ?_⟩
      rw [last]
      refine (value_last v x (y j) c.flags).trans ?_
      simp only [rowSum, last, Nat.add_zero]

def rowsSum (x y : Nat → BitVec 64) : Nat → Nat → Nat
  | _, 0 => 0
  | i, n + 1 => (x i).toNat * rowSum y i 0 (4 - i) + rowsSum x y (i + 1) n

theorem rows_yield {a : Nat → Nat} {x : Nat → BitVec 64} {zeroReg : Nat} (n i : Nat) (all : i + n ≤ 4) {m : Mulx}
    {c : Cpu} {acc : Nat → Nat} {v : Nat → BitVec 64} (ok : m.Ok c) (ha : ∀ t < 4, c.Holds m.dead (a t) (x t))
    (hb : ∀ t < 4, c.Holds m.dead (b t) (y t)) (hv : c.Accumulates m.dead acc v) :
    Yields (rows a b zeroReg i n m acc) c fun acc' c' => ∃ dead v' excess, c'.Accumulates dead acc' v' ∧
      value 4 v' + 2 ^ 256 * excess = value 4 v + rowsSum x y i n := by
  induction n generalizing i m c acc v with
  | zero => exact .pure ⟨m.dead, v, 0, hv, rfl⟩
  | succ n ih =>
    rw [rows]
    have cleared := c.keeps_setFlags m.dead ⟨false, false⟩
    refine .next rfl ((row_yields (4 - i) 0 (by omega) (ok.keep cleared rfl ok.dead rfl)
      ((ha i (by omega)).keep cleared) (fun t lt => (hb t lt).keep cleared) (hv.keep cleared)).bind
      fun ⟨m', acc'⟩ c' ⟨keeps', ok', v', excess, hv', eq⟩ => ?_)
    dsimp only at keeps' ok' hv' eq ⊢
    have keeps := cleared.trans keeps'
    refine (ih (i + 1) (by omega) ok' (fun t lt => (ha t lt).keep keeps) (fun t lt => (hb t lt).keep keeps) hv').mono
      fun acc'' c'' ⟨dead, v'', excess', hv'', eq'⟩ => ⟨dead, v'', excess + excess', hv'', ?_⟩
    replace eq : value 4 v' + 2 ^ 256 * excess = value 4 v + (x i).toNat * rowSum y i 0 (4 - i) +
      (0 * 2 ^ (64 * (i + 0)) + 0 * 2 ^ (64 * (i + 0 + 1))) := eq
    rw [rowsSum]
    linear_combination eq + eq'

end Rows

/-- **The code by rows multiplies.** -/
theorem lowerEvmU256MulExprAdx_yields {c : Cpu} {a b : Nat → Nat} {x y : Nat → BitVec 64}
    (ha : ∀ i < 4, c.Has (a i) (x i)) (hb : ∀ i < 4, c.Has (b i) (y i)) :
    Yields (lowerEvmU256MulExprAdx a b) c fun r c' => ∃ (dead : Nat) (z : Nat → BitVec 64),
      (∀ i < 4, c'.Holds dead (r i) (z i)) ∧ value 4 z = value 4 x * value 4 y % 2 ^ 256 := by
  refine (x86MaterializeInt_yields 0 c.next_pos).bind fun zeroReg c1 ⟨keeps1, _, zeroed⟩ => ?_
  have ok : Mulx.Ok ⟨noRegister, noRegister⟩ c1 := ⟨c1.next_pos, .inl rfl⟩
  refine (emitMulx64_yields ok ((ha 0 (by decide)).keep keeps1) ((hb 0 (by decide)).keep keeps1) true).bind
    fun ⟨m, r0, h00⟩ c2 ⟨keeps2, ok2, low, high, _⟩ => ?_
  dsimp only at keeps2 ok2 low high ⊢
  have cleared := c2.keeps_setFlags m.dead ⟨false, false⟩
  have keeps := (keeps1.trans keeps2).trans cleared
  have start : (c2.setFlags ⟨false, false⟩).Accumulates m.dead (quad r0 h00 zeroReg zeroReg)
      (quad (x 0 * y 0) (mulHigh (x 0) (y 0)) 0 0) := by
    intro k inside
    match k, inside with
    | 0, _ => exact low.keep cleared
    | 1, _ => exact (high rfl).keep cleared
    | 2, _ => exact zeroed.keep (keeps2.trans cleared)
    | 3, _ => exact zeroed.keep (keeps2.trans cleared)
  refine .next rfl ((row_yields 3 1 rfl (ok2.keep cleared rfl ok2.dead rfl) ((ha 0 (by decide)).keep keeps)
    (fun t lt => (hb t lt).keep keeps) start).bind fun ⟨m', acc⟩ c3 ⟨keeps3, ok3, v, excess, hv, eq⟩ => ?_)
  dsimp only at keeps3 ok3 hv eq ⊢
  have keeps' := keeps.trans keeps3
  refine (rows_yield 3 1 (by decide) ok3 (fun t lt => (ha t lt).keep keeps') (fun t lt => (hb t lt).keep keeps') hv).mono
    fun acc' c' ⟨dead, z, excess', hz, eq'⟩ => ⟨dead, z, hz, value_truncated x y (excess + excess') ?_⟩
  have product := toNat_mul (x 0) (y 0)
  replace eq : value 4 v + 2 ^ 256 * excess = value 4 (quad (x 0 * y 0) (mulHigh (x 0) (y 0)) 0 0) +
    (x 0).toNat * rowSum y 0 1 3 + (0 * 2 ^ (64 * (0 + 1)) + 0 * 2 ^ (64 * (0 + 1 + 1))) := eq
  have first : value 4 (quad (x 0 * y 0) (mulHigh (x 0) (y 0)) 0 0) = (x 0).toNat * (y 0).toNat := by
    rw [value_four, ← product]
    rfl
  simp only [rowSum, rowsSum] at eq eq'
  linear_combination eq + eq' + first

def lowerEvmU256MulExpr (hasBMI2 hasADX : Bool) (a b : Nat → Nat) : Emit (Nat → Nat) :=
  if hasBMI2 && hasADX then lowerEvmU256MulExprAdx a b else lowerEvmU256MulExprLegacy a b

/-- **Either code multiplies.** -/
theorem lowerEvmU256MulExpr_yields (hasBMI2 hasADX : Bool) {c : Cpu} {a b : Nat → Nat} {x y : Nat → BitVec 64}
    (ha : ∀ i < 4, c.Has (a i) (x i)) (hb : ∀ i < 4, c.Has (b i) (y i)) :
    Yields (lowerEvmU256MulExpr hasBMI2 hasADX a b) c fun r c' =>
      value 4 (fun i => c'.regs (r i)) = value 4 x * value 4 y % 2 ^ 256 := by
  rw [lowerEvmU256MulExpr]
  split
  · refine (lowerEvmU256MulExprAdx_yields ha hb).mono fun r c' ⟨dead, z, hz, eq⟩ => ?_
    rw [value_congr fun i inside => (hz i inside).eq, eq]
  · refine (lowerEvmU256MulExprLegacy_yields ha hb).mono fun r c' ⟨z, hz, eq⟩ => ?_
    rw [value_congr fun i inside => (hz i inside).eq, eq]

end Dtvm.Jit.X86
