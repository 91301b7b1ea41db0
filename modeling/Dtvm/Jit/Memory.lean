import Dtvm.Jit.Compare

/-!
# Memory, charged at once or region by region

The memory of two regions is charged at once in compiled code and one after the other by the interpreter. The
charge is a difference of costs and the memory only grows, so both come to the same (`Machine.grow_grow`,
`run_expandRegions`, `run_checkMemory_both`). Compiled code has 64 bits for an offset and a size (`Fits`); a region
that does not fit them stops both sides, the interpreter later.
-/

namespace Dtvm

namespace Jit

open Effect Program Code

variable {host : Host}

theorem run_exhaust (m : Machine) : exhaust.run (Machine.handle host) m = (.error (.fail .outOfGas), m) := by
  simp [exhaust, run_bind]

theorem run_expandMemory (required : Nat) (m : Machine) : (expandMemory required).run (Machine.handle host) m =
      if m.gas < m.growCost required then (.error (.fail .outOfGas), m)
      else (.ok (), m.grow required) := by
  simp only [expandMemory, run_bind, run_memorySize, run_charge]
  rw [Machine.growCost, roundUp]
  by_cases short : m.gas < calculateMemoryExpansionCost m.memory.length ((required + 31) / 32 * 32)
  · simp [short]
  · simp only [if_neg short, Code.when]
    split
    · rfl
    · rename_i enough
      simp [Machine.grow, Machine.growCost, roundUp, Nat.sub_eq_zero_of_le (not_lt.mp enough)]

/-- The region fits the 64 bits that compiled code has for it. -/
def Fits (offset size : Word) : Prop :=
  size.toNat < 2 ^ 64 ∧ (size.low64 ≠ 0 → offset.toNat < 2 ^ 64)

instance (offset size : Word) : Decidable (Fits offset size) := inferInstanceAs (Decidable (_ ∧ _))

theorem low64_eq_zero_iff {v : Word} (h : v.toNat < 2 ^ 64) : v.low64 = 0 ↔ v = 0 := by
  rw [low64_of_lt h]
  exact ⟨fun zero => BitVec.eq_of_toNat_eq zero, fun zero => by rw [zero]; rfl⟩

theorem saturate_of_lt {v : Word} (small : v.toNat < 2 ^ 64) : saturate v = v.low64 := if_pos small

theorem saturate_of_ge {v : Word} (large : 2 ^ 64 ≤ v.toNat) : saturate v = 2 ^ 64 - 1 := if_neg large.not_gt

theorem saturate_eq (v : Word) : saturate v = uint256ToUint64 v := by
  rw [saturate, uint256ToUint64]
  split
  · next small => exact low64_of_lt small
  · rfl

theorem saturate_cases (v : Word) : saturate v = v.toNat ∨ saturate v = 2 ^ 64 - 1 ∧ 2 ^ 64 ≤ v.toNat := by
  rcases lt_or_ge v.toNat (2 ^ 64) with small | large
  · exact .inl ((saturate_of_lt small).trans (low64_of_lt small))
  · exact .inr ⟨saturate_of_ge large, large⟩

theorem saturate_eq_zero {v : Word} : saturate v = 0 ↔ v = 0 := by
  have cases := saturate_cases v
  rw [← BitVec.toNat_inj, show (0 : Word).toNat = 0 from rfl]
  omega

theorem run_normalize (offset size : Word) (m : Machine) :
    (normalizeOffsetWithSize offset size).run (Machine.handle host) m =
      if Fits offset size then (.ok (Handler.regionOffset offset size.low64, size.low64), m)
      else (.error (.fail .outOfGas), m) := by
  unfold normalizeOffsetWithSize
  by_cases small : size.toNat < 2 ^ 64
  · rw [if_neg small.not_ge]
    by_cases far : size.low64 ≠ 0 ∧ 2 ^ 64 ≤ offset.toNat
    · rw [if_pos far, if_neg fun fits => (fits.2 far.1).not_ge far.2]
      rfl
    · have fits : Fits offset size := ⟨small, fun some => not_le.mp fun large => far ⟨some, large⟩⟩
      rw [if_neg far, if_pos fits]
      rfl
  · rw [if_pos (not_lt.mp small), if_neg fun fits => small fits.1]
    rfl

theorem run_expandTo (required : Option Nat) (m : Machine) : (expandTo required).run (Machine.handle host) m =
      match required with
      | none => (.error (.fail .outOfGas), m)
      | some n => if n > maxRequiredMemorySize ∨ m.gas < m.growCost n
          then (.error (.fail .outOfGas), m) else (.ok true, m.grow n) := by
  cases required with
  | none => exact run_bind_error (run_exhaust m) _
  | some n =>
    by_cases large : n > maxRequiredMemorySize
    · simp only [expandTo, large, true_or, if_true]
      exact run_bind_error (run_exhaust m) _
    · have grown := @run_expandMemory host n m
      by_cases short : m.gas < m.growCost n
      · rw [if_pos short] at grown
        simp only [expandTo, large, short, or_true, if_true, if_false]
        exact run_bind_error grown _
      · rw [if_neg short] at grown
        simp only [expandTo, large, short, or_self, if_false]
        exact run_bind_ok grown _

/-! ## Two regions -/

theorem fits_of_demanded {offset size : Word} (near : demanded offset size ≤ maxRequiredMemorySize) :
    Fits offset size := by
  have limit := maxRequired_lt
  unfold demanded at near
  split at near
  · next none =>
    subst none
    exact ⟨by decide, fun some => absurd rfl some⟩
  · exact ⟨by omega, fun _ => by omega⟩

theorem run_checkMemory_of_not_fits {offset size : Word} (fits : ¬ Fits offset size) (m : Machine) :
    (Handler.checkMemoryExpandAndChargeGas offset size).run (Machine.handle host) m =
      (.error (.fail .outOfGas), m) :=
  (Handler.run_checkMemoryExpandAndChargeGas ..).trans (if_neg fun fine => fits (fits_of_demanded fine.1))

/-- What an instance works out of a region's end: the end, or something that is beyond the limit as well. -/
def Demands (required : Option Nat) (reach : Nat) : Prop :=
  required = some reach ∨ maxRequiredMemorySize < reach ∧ ∀ n, required = some n → maxRequiredMemorySize < n

theorem demands_saturate {offset size : Word} (some : size ≠ 0) :
    Demands (calcRequiredMemorySize (saturate offset) (saturate size)) (demanded offset size) := by
  have limit := maxRequired_lt
  have o := saturate_cases offset
  have s := saturate_cases size
  rw [Demands, calcRequiredMemorySize, demanded, if_neg some]
  split
  · exact .inr ⟨by omega, fun n none => by cases none⟩
  · by_cases near : offset.toNat + size.toNat ≤ maxRequiredMemorySize
    · exact .inl (congrArg Option.some (by omega))
    · refine .inr ⟨by omega, ?_⟩
      rintro n ⟨⟩
      omega

theorem demands_calcRequired {offset size : Word} (fits : Fits offset size) (some : size.low64 ≠ 0) :
    Demands (calcRequiredMemorySize offset.low64 size.low64) (demanded offset size) := by
  rw [← saturate_of_lt fits.1, ← saturate_of_lt (fits.2 some)]
  exact demands_saturate ((low64_eq_zero_iff fits.1).not.mp some)

theorem Demands.both {r r' : Option Nat} {x y : Nat} (h : Demands r x) (h' : Demands r' y) :
    Demands (do let a ← r; let b ← r'; pure (max a b)) (max x y) := by
  rcases h with rfl | ⟨far, beyond⟩
  · rcases h' with rfl | ⟨far, beyond⟩
    · exact .inl rfl
    · refine .inr ⟨lt_max_of_lt_right far, ?_⟩
      simp only [Option.bind_eq_bind, Option.bind_eq_some_iff, Option.pure_def, Option.some.injEq]
      rintro n ⟨_, rfl, b, eq, rfl⟩
      exact lt_max_of_lt_right (beyond b eq)
  · refine .inr ⟨lt_max_of_lt_left far, ?_⟩
    simp only [Option.bind_eq_bind, Option.bind_eq_some_iff, Option.pure_def, Option.some.injEq]
    rintro n ⟨a, eq, b, -, rfl⟩
    exact lt_max_of_lt_left (beyond a eq)

theorem run_expandTo_of_demands {required : Option Nat} {reach : Nat} (h : Demands required reach) (t : Machine) :
    (expandTo required).run (Machine.handle host) t =
      if reach ≤ maxRequiredMemorySize ∧ t.growCost reach ≤ t.gas then (.ok true, t.grow reach)
      else (.error (.fail .outOfGas), t) := by
  rw [run_expandTo]
  rcases h with rfl | ⟨far, beyond⟩
  · show (if _ then _ else _) = _
    by_cases fine : reach ≤ maxRequiredMemorySize ∧ t.growCost reach ≤ t.gas
    · rw [if_pos fine, if_neg (by omega)]
    · rw [if_neg fine, if_pos (by omega)]
  · rw [if_neg fun fine => fine.1.not_gt far]
    cases required with
    | none => rfl
    | some n => exact if_pos (.inl (beyond n rfl))

theorem run_expandSaturated (offset size : Word) (t : Machine) :
    (expandMemoryChecked (saturate offset) (saturate size)).run (Machine.handle host) t =
      if demanded offset size ≤ maxRequiredMemorySize ∧ t.growCost (demanded offset size) ≤ t.gas
        then (.ok true, t.grow (demanded offset size)) else (.error (.fail .outOfGas), t) := by
  unfold expandMemoryChecked
  by_cases none : size = 0
  · rw [demanded, if_pos none, if_pos (saturate_eq_zero.mpr none)]
    simp only [Nat.zero_le, Machine.growCost_zero, Machine.grow_zero, and_self, if_true]
    rfl
  · rw [if_neg (saturate_eq_zero.not.mpr none)]
    exact run_expandTo_of_demands (demands_saturate none) t

theorem run_expandMemoryChecked {offset size : Word} (fits : Fits offset size) (t : Machine) :
    (expandMemoryChecked (Handler.regionOffset offset size.low64) size.low64).run (Machine.handle host) t =
      if demanded offset size ≤ maxRequiredMemorySize ∧ t.growCost (demanded offset size) ≤ t.gas
        then (.ok true, t.grow (demanded offset size)) else (.error (.fail .outOfGas), t) := by
  rw [← run_expandSaturated, saturate_of_lt fits.1]
  unfold expandMemoryChecked Handler.regionOffset
  split
  · rfl
  · next some => rw [saturate_of_lt (fits.2 some)]

section

variable {io is oo os : Word}

theorem run_expandRegions (input : Fits io is) (output : Fits oo os) (t : Machine) :
    (expandRegions (Handler.regionOffset io is.low64) is.low64 (Handler.regionOffset oo os.low64) os.low64).run
        (Machine.handle host) t =
      if max (demanded io is) (demanded oo os) ≤ maxRequiredMemorySize ∧
          t.growCost (max (demanded io is) (demanded oo os)) ≤ t.gas
        then (.ok true, t.grow (max (demanded io is) (demanded oo os))) else (.error (.fail .outOfGas), t) := by
  have none : ∀ {offset size : Word}, Fits offset size → size.low64 = 0 → demanded offset size = 0 :=
    fun fits zero => if_pos ((low64_eq_zero_iff fits.1).mp zero)
  unfold expandRegions Handler.regionOffset
  by_cases noInput : is.low64 = 0 <;> by_cases noOutput : os.low64 = 0
  · simp only [noInput, noOutput, none input noInput, none output noOutput, lt_irrefl, if_false, max_self,
      Nat.zero_le, Machine.growCost_zero, Machine.grow_zero, and_self, if_true]
    rfl
  · simp only [noInput, noOutput, if_false, lt_irrefl, false_and, gt_iff_lt, Nat.pos_of_ne_zero noOutput, if_true,
      expandMemoryChecked, none input noInput, Nat.zero_max]
    exact run_expandTo_of_demands (demands_calcRequired output noOutput) t
  · simp only [noInput, noOutput, if_false, lt_irrefl, and_false, gt_iff_lt, Nat.pos_of_ne_zero noInput, if_true,
      expandMemoryChecked, none output noOutput, Nat.max_zero]
    exact run_expandTo_of_demands (demands_calcRequired input noInput) t
  · simp only [noInput, noOutput, if_false, gt_iff_lt, Nat.pos_of_ne_zero noInput, Nat.pos_of_ne_zero noOutput,
      and_self, if_true, expandMemoryCheckedBoth]
    exact run_expandTo_of_demands ((demands_calcRequired input noInput).both (demands_calcRequired output noOutput)) t

theorem run_checkMemory_both {reach : Nat} (both : max (demanded io is) (demanded oo os) = reach) (t : Machine) :
    ∃ e, e.trace = t.trace ∧ (Handler.checkMemoryExpandAndChargeGas io is >>=
      fun _ => Handler.checkMemoryExpandAndChargeGas oo os).run (Machine.handle host) t =
      if reach ≤ maxRequiredMemorySize ∧ t.growCost reach ≤ t.gas then (.ok (), t.grow reach)
        else (.error (.fail .outOfGas), e) := by
  have sum := t.growCost_grow (demanded io is) (demanded oo os)
  have left : (t.grow (demanded io is)).gas = t.gas - t.growCost (demanded io is) := rfl
  have first := @Handler.run_checkMemoryExpandAndChargeGas host io is t
  have second := @Handler.run_checkMemoryExpandAndChargeGas host oo os (t.grow (demanded io is))
  rw [Machine.grow_grow, both] at second
  rw [both] at sum
  by_cases input : demanded io is ≤ maxRequiredMemorySize ∧ t.growCost (demanded io is) ≤ t.gas
  · refine ⟨t.grow (demanded io is), rfl, ?_⟩
    rw [run_bind_ok (first.trans (if_pos input)), second]
    exact if_congr (by omega) rfl rfl
  · refine ⟨t, rfl, ?_⟩
    rw [run_bind_error (first.trans (if_neg input)), if_neg (by omega)]

end

end Jit

end Dtvm
