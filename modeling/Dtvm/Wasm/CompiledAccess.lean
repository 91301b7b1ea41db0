import Dtvm.Wasm.Interpreter

/-!
# Compiled loads and stores

`FunctionMirBuilder::getMemoryLocation` with the code that `X86CgLowering` emits for its check and for the
access. The bound is checked on the whole sum in 64 bits; the address is put together from a base, a 32-bit
index and a signed 32-bit displacement. A function keeps the base and the size of the memory in variables,
which it reads again after each call and each `memory.grow`.
-/

namespace Dtvm.Wasm.Compiled

/-- The base of an access, an operand of type `i32`. -/
inductive Base where
  | const (value : BitVec 32)
  | dynamic (value : BitVec 32)

def Base.value : Base → BitVec 32
  | .const v | .dynamic v => v

def int32Max : Nat := 2 ^ 31 - 1

/-- What `getMemoryLocation` makes: the operands of `WasmCheckMemoryAccessInstruction`, and the base, index
and displacement of the access, where the base is that of the memory and `baseDelta`. -/
structure Location where
  checkBase : Option (BitVec 32)
  checkOffset : BitVec 64
  baseDelta : BitVec 64
  accessBase : Option (BitVec 32)
  accessOffset : BitVec 32

/-- The displacement is signed: an offset that is too large for it is split. -/
def splitOffset (offset : BitVec 32) : BitVec 64 × BitVec 32 :=
  if offset.toNat > int32Max then (BitVec.ofNat 64 (int32Max + 1), offset - BitVec.ofNat 32 (int32Max + 1))
  else (0, offset)

def getMemoryLocation (base : Base) (offset : BitVec 32) : Location :=
  match base with
  | .dynamic value =>
    let (delta, accessOffset) := splitOffset offset
    ⟨some value, offset.setWidth 64, delta, some value, accessOffset⟩
  | .const value =>
    let checkOffset := value.setWidth 64 + offset.setWidth 64
    if checkOffset.toNat ≤ int32Max then
      let (delta, accessOffset) := splitOffset (checkOffset.setWidth 32)
      ⟨none, checkOffset, delta, none, accessOffset⟩
    else
      let (delta, accessOffset) := splitOffset offset
      ⟨none, checkOffset, delta, some value, accessOffset⟩

def zeroExtended : Option (BitVec 32) → BitVec 64
  | none => 0
  | some v => v.setWidth 64

namespace Location

variable (l : Location)

/-- `lowerWasmCheckMemoryAccessStmt`: whether the branch to the exception is taken. -/
def traps (size memorySize : BitVec 32) : Bool :=
  let offset := l.checkOffset + size.setWidth 64
  let actualBoundary := match l.checkBase with
    | some base => base.setWidth 64 + offset
    | none => offset
  (memorySize.setWidth 64).ult actualBoundary

/-- `lowerLoadExpr` and `lowerStoreStmt`: the address. -/
def address (memoryBase : BitVec 64) : BitVec 64 :=
  memoryBase + l.baseDelta + zeroExtended l.accessBase + l.accessOffset.signExtend 64

end Location

/-! ## One access -/

theorem splitOffset_sum (offset : BitVec 32) :
    (splitOffset offset).1 + (splitOffset offset).2.signExtend 64 = offset.setWidth 64 := by
  have low {x : BitVec 32} (small : x.toNat ≤ int32Max) : x.signExtend 64 = x.setWidth 64 := by
    refine BitVec.signExtend_eq_setWidth_of_msb_false ?_
    rw [BitVec.msb_eq_false_iff_two_mul_lt]
    unfold int32Max at small
    omega
  unfold splitOffset
  split
  case isTrue large =>
    have rest : (offset - BitVec.ofNat 32 (int32Max + 1)).toNat = offset.toNat - 2 ^ 31 := by
      unfold int32Max at *
      bv_omega
    dsimp only
    rw [low (by unfold int32Max at *; omega)]
    apply BitVec.eq_of_toNat_eq
    unfold int32Max at *
    rw [BitVec.toNat_add, BitVec.toNat_setWidth, BitVec.toNat_setWidth, rest, BitVec.toNat_ofNat]
    omega
  case isFalse small => simp [low (Nat.le_of_not_lt small)]

theorem getMemoryLocation_address (base : Base) (offset : BitVec 32) (memoryBase : BitVec 64) :
    (getMemoryLocation base offset).address memoryBase = memoryBase + base.value.setWidth 64 + offset.setWidth 64 := by
  have sum (index : BitVec 64) (offset : BitVec 32) : memoryBase + (splitOffset offset).1 + index +
      (splitOffset offset).2.signExtend 64 = memoryBase + index + offset.setWidth 64 := by
    rw [← splitOffset_sum offset]
    ac_rfl
  unfold Location.address
  cases base with
  | dynamic value => exact sum _ _
  | const value =>
    simp only [getMemoryLocation]
    split
    case isFalse => exact sum _ _
    case isTrue small =>
      have narrow : ((value.setWidth 64 + offset.setWidth 64).setWidth 32).setWidth 64 =
          value.setWidth 64 + offset.setWidth 64 := by
        apply BitVec.eq_of_toNat_eq
        unfold int32Max at small
        rw [BitVec.toNat_setWidth, BitVec.toNat_setWidth]
        omega
      refine (sum 0#64 _).trans ?_
      rw [narrow, BitVec.add_zero, Base.value, BitVec.add_assoc]

theorem getMemoryLocation_traps (base : Base) (offset size memorySize : BitVec 32) :
    (getMemoryLocation base offset).traps size memorySize = true ↔
      base.value.toNat + offset.toNat + size.toNat > memorySize.toNat := by
  have total (a : BitVec 64) (same : a.toNat = base.value.toNat + offset.toNat + size.toNat) :
      (memorySize.setWidth 64).ult a = true ↔
        base.value.toNat + offset.toNat + size.toNat > memorySize.toNat := by
    have := memorySize.isLt
    rw [BitVec.ult, decide_eq_true_iff, same, BitVec.toNat_setWidth]
    omega
  have bounds := And.intro base.value.isLt (And.intro offset.isLt size.isLt)
  cases base with
  | dynamic value =>
    refine total _ ?_
    simp only [getMemoryLocation, BitVec.toNat_add, BitVec.toNat_setWidth, Base.value] at *
    omega
  | const value =>
    simp only [getMemoryLocation]
    split <;>
      · refine total _ ?_
        simp only [BitVec.toNat_add, BitVec.toNat_setWidth, Base.value] at *
        omega

/-! ## The variables of a function -/

structure InstanceMemory where
  memBase : BitVec 64
  memSize : BitVec 64
  representable : memSize.toNat < 2 ^ 32

/-- A function at work: the instance and the variables at `MemoryBaseIdx` and `MemorySizeIdx`. -/
structure Running where
  inst : InstanceMemory
  memoryBase : BitVec 64
  memorySize : BitVec 32

namespace Running

/-- `updateMemoryBaseAndSize`, which is also how a function begins. -/
def updateMemoryBaseAndSize (inst : InstanceMemory) : Running :=
  ⟨inst, inst.memBase, inst.memSize.setWidth 32⟩

/-- `handleLoad` and `handleStore`: the address of the access. -/
def access (base : Base) (offset size : BitVec 32) (s : Running) : Except ErrorCode (BitVec 64) :=
  let location := getMemoryLocation base offset
  if location.traps size s.memorySize then .error .outOfBoundsMemory else .ok (location.address s.memoryBase)

/-- What a function does with the memory: an access, or a call or `memory.grow` that leaves the instance with
this memory. -/
inductive Event where
  | access (base : Base) (offset size : BitVec 32)
  | call (after : InstanceMemory)
  | grow (after : InstanceMemory)

def step (s : Running) : Event → Running
  | .access .. => s
  | .call after | .grow after => updateMemoryBaseAndSize after

def Fresh (s : Running) : Prop := s = updateMemoryBaseAndSize s.inst

theorem Fresh.run {s : Running} (events : List Event) (h : s.Fresh) : (events.foldl step s).Fresh := by
  induction events generalizing s with
  | nil => exact h
  | cons e events ih =>
    refine ih ?_
    cases e with
    | access => exact h
    | call | grow => exact rfl

end Running

/-- **Compiled accesses.** Whatever a function has done, it traps exactly when an access would reach beyond
the memory that the instance then has, and else accesses that memory at the sum of base and offset. -/
theorem access_exact (inst : InstanceMemory) (events : List Running.Event) (base : Base) (offset size : BitVec 32) :
    let s := events.foldl Running.step (.updateMemoryBaseAndSize inst)
    s.access base offset size =
      if base.value.toNat + offset.toNat + size.toNat > s.inst.memSize.toNat then .error .outOfBoundsMemory
      else .ok (s.inst.memBase + base.value.setWidth 64 + offset.setWidth 64) := by
  intro s
  have fresh : s.Fresh := Running.Fresh.run events rfl
  have size_eq : s.memorySize.toNat = s.inst.memSize.toNat := by
    rw [fresh]
    exact (BitVec.toNat_setWidth ..).trans (Nat.mod_eq_of_lt s.inst.representable)
  have base_eq : s.memoryBase = s.inst.memBase := by rw [fresh]; rfl
  rw [Running.access, getMemoryLocation_address, base_eq, ← size_eq]
  exact if_congr (getMemoryLocation_traps ..) rfl rfl

end Dtvm.Wasm.Compiled
