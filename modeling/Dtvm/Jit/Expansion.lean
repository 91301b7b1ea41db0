import Dtvm.Jit.DirectMemory

/-!
# Memory expansion in 64-bit words

The memory grows in three places: in the interpreter, where it is a vector of the frame, in the runtime, and in
compiled code itself. The last two share the buffer of the instance, which is as large as a memory may become and
is not cleared between messages.

All three compute with 64-bit words, where a sum or a product may wrap. Each of them comes to one specification
over the natural numbers (`Frame.expanded`), so the forms of `Evm.Handlers`, `Jit.Calls` and `Jit.DirectMemory`,
which do not wrap, are those that the machine executes.
-/

namespace Dtvm.Expansion

open Jit

/-- `uint64_t`. -/
abbrev U64 := BitVec 64

/-- `MAX_REQUIRED_MEMORY_SIZE`. -/
def maxRequired : U64 := BitVec.ofNat 64 maxRequiredMemorySize

/-- The `MemoryCost` of `calculateMemoryExpansionCost`, in 128 bits and then cut to 64. The words of a 64-bit
size are fewer than `2 ^ 60`, so the sign of the 128 bits plays no part. -/
def memoryCost64 (words : U64) : U64 :=
  let w := words.setWidth 128
  (w * w / 512 + 3 * w).setWidth 64

/-- `calculateMemoryExpansionCost`, which the interpreter and the runtime each have. -/
def calculateMemoryExpansionCost64 (currentSize newSize : U64) : U64 :=
  if newSize ≤ currentSize then 0
  else memoryCost64 ((newSize + 31) / 32) - memoryCost64 ((currentSize + 31) / 32)

/-! ## The interpreter -/

@[ext] structure Frame where
  memory : Bytes
  gas : U64
deriving DecidableEq, Repr

namespace Frame

def chargeGas (gasCost : U64) (f : Frame) : Option Frame :=
  if f.gas < gasCost then none else some { f with gas := f.gas - gasCost }

def expandMemoryAndChargeGas (requiredSize : U64) (f : Frame) : Option Frame :=
  if requiredSize > maxRequired then none
  else do
    let currentSize := BitVec.ofNat 64 f.memory.length
    let requiredSize := (requiredSize + 31) / 32 * 32
    let f ← f.chargeGas (calculateMemoryExpansionCost64 currentSize requiredSize)
    if requiredSize > currentSize then
      pure { f with memory := f.memory ++ List.replicate (requiredSize.toNat - f.memory.length) 0 }
    else pure f

/-- `checkMemoryExpandAndChargeGas` for a 64-bit size. -/
def checkMemoryExpand64 (offset : Word) (size : U64) (f : Frame) : Option Frame :=
  if offset.toNat > 2 ^ 64 - 1 then none
  else
    let offset64 := offset.setWidth 64
    if offset64 > BitVec.allOnes 64 - size then none
    else f.expandMemoryAndChargeGas (offset64 + size)

/-- `checkMemoryExpandAndChargeGas` for a 256-bit size. -/
def checkMemoryExpandAndChargeGas (offset size : Word) (f : Frame) : Option Frame :=
  if size = 0 then some f
  else if size.toNat > 2 ^ 64 - 1 then none
  else f.checkMemoryExpand64 offset (size.setWidth 64)

def moved (dest src size : Nat) (memory : Bytes) : Bytes :=
  overwrite memory dest ((memory.drop src).take size)

/-- `MCopyHandler` on its operands. -/
def mcopy (dest src size : Word) (f : Frame) : Option Frame :=
  if size = 0 then some f
  else do
    let f ← f.checkMemoryExpandAndChargeGas (if dest.toNat < src.toNat then src else dest) size
    let size64 := size.setWidth 64
    let f ← f.chargeGas ((size64 + 31) / 32 * 3)
    pure { f with memory := moved (dest.setWidth 64).toNat (src.setWidth 64).toNat size64.toNat f.memory }

end Frame

/-! ## The instance -/

inductive Stop where
  | gasLimitExceeded
  /-- Bytes outside the buffer are written. -/
  | badWrite
deriving DecidableEq, Repr

/-- The memory of an instance. The buffer is what `ensureMemoryBuffer` gives when it has not been called,
whose bytes are not known, just as those beyond the size are not. -/
structure Instance where
  buffer : Bytes
  memoryBase : Base
  memorySize : U64
  gas : U64
  length_buffer : buffer.length = maxRequiredMemorySize
  whole : memorySize.toNat % 32 = 0
  room : memorySize.toNat ≤ maxRequiredMemorySize
  allocated : memorySize ≠ 0 → memoryBase = .buffer

namespace Instance

def view (s : Instance) : Frame := ⟨s.buffer.take s.memorySize.toNat, s.gas⟩

/-- `EVMInstance::chargeGas`, and `chargeDynamicGasIR`. -/
def chargeGas (gasCost : U64) (s : Instance) : Except Stop Instance :=
  if s.gas < gasCost then .error .gasLimitExceeded else .ok { s with gas := s.gas - gasCost }

theorem alignedSize_whole (x : U64) : (x / 32 * 32).toNat % 32 = 0 := by
  have lt := x.isLt
  rw [BitVec.toNat_mul, BitVec.toNat_udiv]
  show x.toNat / 32 * 32 % 2 ^ 64 % 32 = 0
  omega

def extended (newSize : U64) (s : Instance) : Bytes :=
  overwrite s.buffer s.memorySize.toNat (List.replicate (newSize - s.memorySize).toNat 0)

theorem length_extended {newSize : U64} {s : Instance} (more : newSize > s.memorySize)
    (inside : newSize.toNat ≤ maxRequiredMemorySize) : (s.extended newSize).length = maxRequiredMemorySize := by
  have size : (newSize - s.memorySize).toNat = newSize.toNat - s.memorySize.toNat :=
    BitVec.toNat_sub_of_le (BitVec.le_of_lt more)
  have le : s.memorySize.toNat < newSize.toNat := more
  rw [extended, length_overwrite, s.length_buffer]
  rw [List.length_replicate, size, s.length_buffer]
  omega

def expandMemoryNoGas (requiredSize : U64) (s : Instance) : Except Stop Instance :=
  let newSize := (requiredSize + 31) / 32 * 32
  if more : newSize > s.memorySize then
    if inside : newSize.toNat ≤ maxRequiredMemorySize then
      .ok { s with
        buffer := s.extended newSize
        memoryBase := .buffer
        memorySize := newSize
        length_buffer := length_extended more inside
        whole := alignedSize_whole _
        room := inside
        allocated := fun _ => rfl }
    else .error .badWrite
  else .ok s

/-! ### The runtime -/

def expandMemory (requiredSize : U64) (s : Instance) : Except Stop Instance := do
  let newSize := (requiredSize + 31) / 32 * 32
  let s ← s.chargeGas (calculateMemoryExpansionCost64 s.memorySize newSize)
  s.expandMemoryNoGas requiredSize

def calcRequiredMemorySize (offset size : U64) : Option U64 :=
  if offset > BitVec.allOnes 64 - size then none else some (offset + size)

/-- The end of both forms of `EVMInstance::expandMemoryChecked`. What raises the exception is a charge of
more gas than there is, one unit more. -/
def expandTo (requiredSize : Option U64) (s : Instance) : Except Stop (Bool × Instance) :=
  let refuse := do
    let s ← s.chargeGas (s.gas + 1)
    pure (false, s)
  match requiredSize with
  | none => refuse
  | some requiredSize =>
    if requiredSize > maxRequired then refuse
    else do
      let s ← s.expandMemory requiredSize
      pure (true, s)

/-- `EVMInstance::expandMemoryChecked` for one region. -/
def expandMemoryChecked (offset size : U64) (s : Instance) : Except Stop (Bool × Instance) :=
  if size = 0 then .ok (true, s) else s.expandTo (calcRequiredMemorySize offset size)

/-- `EVMInstance::expandMemoryChecked` for two regions. -/
def expandMemoryCheckedBoth (offsetA sizeA offsetB sizeB : U64) (s : Instance) :
    Except Stop (Bool × Instance) :=
  if sizeA = 0 ∧ sizeB = 0 then .ok (true, s)
  else if sizeB = 0 then s.expandMemoryChecked offsetA sizeA
  else if sizeA = 0 then s.expandMemoryChecked offsetB sizeB
  else s.expandTo (do
    let requiredSizeA ← calcRequiredMemorySize offsetA sizeA
    let requiredSizeB ← calcRequiredMemorySize offsetB sizeB
    pure (if requiredSizeA < requiredSizeB then requiredSizeB else requiredSizeA))

/-- `normalizeOffsetWithSize`, which prepares a region for the runtime. -/
def normalizeOffsetWithSize (offset size : Word) : Except Stop (U64 × U64) :=
  if 2 ^ 64 ≤ size.toNat then .error .gasLimitExceeded
  else if size.setWidth 64 ≠ (0 : U64) ∧ 2 ^ 64 ≤ offset.toNat then .error .gasLimitExceeded
  else .ok (if size.setWidth 64 = (0 : U64) then 0 else offset.setWidth 64, size.setWidth 64)

def expandRegion (offset size : Word) (s : Instance) : Except Stop (Bool × Instance) := do
  let (offset, size) ← normalizeOffsetWithSize offset size
  s.expandMemoryChecked offset size

def expandRegions (offsetA sizeA offsetB sizeB : Word) (s : Instance) : Except Stop (Bool × Instance) := do
  let (offsetA, sizeA) ← normalizeOffsetWithSize offsetA sizeA
  let (offsetB, sizeB) ← normalizeOffsetWithSize offsetB sizeB
  s.expandMemoryCheckedBoth offsetA sizeA offsetB sizeB

/-! ### Compiled code -/

/-- `calculateMemoryGasCostIR`. -/
def calculateMemoryGasCostIR64 (sizeInBytes : U64) : U64 :=
  let sizeInWords := (sizeInBytes + 31) >>> 5
  sizeInWords * sizeInWords / 512 + 3 * sizeInWords

/-- `expandMemoryIR`. -/
def expandMemoryIR64 (requiredSize : U64) (overflow : Bool) (s : Instance) : Except Stop Instance :=
  if overflow || decide (requiredSize > maxRequired) then .error .gasLimitExceeded
  else if requiredSize > s.memorySize then do
    let alignedSize := ((requiredSize + 31) >>> 5) <<< 5
    let s ← s.chargeGas
      (calculateMemoryGasCostIR64 alignedSize - calculateMemoryGasCostIR64 s.memorySize)
    s.expandMemoryNoGas alignedSize
  else .ok s

def normalizeOperandU64 (v : Word) : Except Stop U64 :=
  if v.toNat < 2 ^ 64 then .ok (v.setWidth 64) else .error .gasLimitExceeded

def limb (v : Word) (i : Nat) : U64 := (v >>> (64 * i)).setWidth 64

/-- What ties the check of a store to the stored value, and is zero. -/
def valueDep (value : Word) : MemoryOp → U64
  | .mload => 0
  | .mstore => (limb value 0 ||| limb value 1 ||| limb value 2 ||| limb value 3) &&& 0
  | .mstore8 => limb value 0 &&& 0

/-- The check of `handleMLoad`, `handleMStore` and `handleMStore8` outside of a plan. -/
def checkAccess (k : MemoryOp) (addr value : Word) (s : Instance) : Except Stop Instance := do
  let offset ← normalizeOperandU64 addr
  let requiredSize := offset + BitVec.ofNat 64 k.width + valueDep value k
  s.expandMemoryIR64 requiredSize (decide (requiredSize < offset))

theorem length_moved {dest src size : Nat} {memory : Bytes} (inside : dest + size ≤ memory.length) :
    (Frame.moved dest src size memory).length = memory.length := by
  apply length_overwrite
  have le := List.length_take_le size (memory.drop src)
  omega

/-- `memmove` in the buffer. -/
def memmove (dest src size : U64) (s : Instance) : Except Stop Instance :=
  if inside : s.memoryBase = .buffer ∧ dest.toNat + size.toNat ≤ maxRequiredMemorySize ∧
      src.toNat + size.toNat ≤ maxRequiredMemorySize then
    .ok { s with
      buffer := Frame.moved dest.toNat src.toNat size.toNat s.buffer
      length_buffer := (length_moved (s.length_buffer ▸ inside.2.1)).trans s.length_buffer }
  else .error .badWrite

def handleMCopy (dest src size : Word) (s : Instance) : Except Stop Instance :=
  if limb size 0 ||| limb size 1 ||| limb size 2 ||| limb size 3 = 0 then .ok s
  else do
    let destOffset ← normalizeOperandU64 dest
    let srcOffset ← normalizeOperandU64 src
    let len ← normalizeOperandU64 size
    let s ← s.chargeGas (((len + 31) >>> 5) * 3)
    let destEnd := destOffset + len
    let srcEnd := srcOffset + len
    let overflow := decide (destEnd < destOffset) || decide (srcEnd < srcOffset)
    let s ← s.expandMemoryIR64 (if destEnd > srcEnd then destEnd else srcEnd) overflow
    s.memmove destOffset srcOffset len

end Instance

/-! ## The arithmetic does not wrap -/

theorem toNat_maxRequired : maxRequired.toNat = maxRequiredMemorySize := by decide

theorem words_shifted (x : U64) : (x + 31) >>> 5 = (x + 31) / 32 := by
  apply BitVec.eq_of_toNat_eq
  rw [BitVec.toNat_ushiftRight, BitVec.toNat_udiv]
  exact Nat.shiftRight_eq_div_pow _ 5

section Cost

variable {words : U64} (few : words.toNat ≤ 2 ^ 20)

include few

theorem words_mul_words : words.toNat * words.toNat ≤ 2 ^ 40 :=
  Nat.le_trans (Nat.mul_le_mul few few) (by decide)

theorem toNat_memoryCost64 : (memoryCost64 words).toNat = memoryCost words.toNat := by
  have squared := words_mul_words few
  have wide : (words.setWidth 128).toNat = words.toNat := by
    rw [BitVec.toNat_setWidth]
    exact Nat.mod_eq_of_lt (by omega)
  have square : (words.setWidth 128 * words.setWidth 128).toNat = words.toNat * words.toNat := by
    rw [BitVec.toNat_mul, wide]
    exact Nat.mod_eq_of_lt (by omega)
  have linear : (3 * words.setWidth 128).toNat = 3 * words.toNat := by
    rw [BitVec.toNat_mul, wide]
    exact Nat.mod_eq_of_lt (by show 3 * words.toNat < 2 ^ 128; omega)
  rw [memoryCost64, memoryCost, BitVec.toNat_setWidth, BitVec.toNat_add, BitVec.toNat_udiv, square, linear]
  show (words.toNat * words.toNat / 512 + 3 * words.toNat) % 2 ^ 128 % 2 ^ 64 = _
  rw [Nat.mod_eq_of_lt (a := _ / _ + _) (by omega), Nat.mod_eq_of_lt (by omega)]

theorem toNat_costIR : (words * words / 512 + 3 * words).toNat = memoryCost words.toNat := by
  have squared := words_mul_words few
  have square : (words * words).toNat = words.toNat * words.toNat := by
    rw [BitVec.toNat_mul]
    exact Nat.mod_eq_of_lt (by omega)
  have linear : (3 * words).toNat = 3 * words.toNat := by
    rw [BitVec.toNat_mul]
    exact Nat.mod_eq_of_lt (by show 3 * words.toNat < 2 ^ 64; omega)
  rw [memoryCost, BitVec.toNat_add, BitVec.toNat_udiv, square, linear]
  show (words.toNat * words.toNat / 512 + 3 * words.toNat) % 2 ^ 64 = _
  exact Nat.mod_eq_of_lt (by omega)

end Cost

section Sizes

variable {x : U64} (small : x.toNat ≤ maxRequiredMemorySize)

include small

theorem toNat_words : ((x + 31) / 32).toNat = (x.toNat + 31) / 32 := by
  have limit := maxRequired_lt
  rw [BitVec.toNat_udiv, BitVec.toNat_add]
  show (x.toNat + 31) % 2 ^ 64 / 32 = _
  rw [Nat.mod_eq_of_lt (by omega)]

theorem words_few : ((x + 31) / 32).toNat ≤ 2 ^ 20 := by
  have limit : maxRequiredMemorySize = 524288 * 32 := by decide
  rw [toNat_words small]
  omega

theorem toNat_aligned : ((x + 31) / 32 * 32).toNat = roundUp x.toNat := by
  have limit := maxRequired_lt
  rw [BitVec.toNat_mul, toNat_words small, roundUp]
  exact Nat.mod_eq_of_lt (by show (x.toNat + 31) / 32 * 32 < 2 ^ 64; omega)

theorem toNat_shifted : (((x + 31) >>> 5) <<< 5).toNat = roundUp x.toNat := by
  have limit := maxRequired_lt
  rw [BitVec.toNat_shiftLeft, words_shifted, toNat_words small, roundUp, Nat.shiftLeft_eq]
  exact Nat.mod_eq_of_lt (by omega)

theorem toNat_gasCostIR64 : (Instance.calculateMemoryGasCostIR64 x).toNat = calculateMemoryGasCostIR x.toNat := by
  rw [Instance.calculateMemoryGasCostIR64, words_shifted, calculateMemoryGasCostIR]
  exact (toNat_costIR (words_few small)).trans (by rw [toNat_words small])

end Sizes

theorem toNat_expansionCost64 {currentSize newSize : U64}
    (current : currentSize.toNat ≤ maxRequiredMemorySize) (new : newSize.toNat ≤ maxRequiredMemorySize) :
    (calculateMemoryExpansionCost64 currentSize newSize).toNat =
      calculateMemoryExpansionCost currentSize.toNat newSize.toNat := by
  rw [calculateMemoryExpansionCost64, calculateMemoryExpansionCost]
  by_cases fits : newSize.toNat ≤ currentSize.toNat
  · rw [if_pos fits, if_pos (BitVec.le_def.mpr fits)]
    rfl
  · have old := toNat_memoryCost64 (words_few current)
    have full := toNat_memoryCost64 (words_few new)
    rw [toNat_words current] at old
    rw [toNat_words new] at full
    have mono : memoryCost ((currentSize.toNat + 31) / 32) ≤ memoryCost ((newSize.toNat + 31) / 32) :=
      memoryCost_mono (by omega)
    rw [if_neg fits, if_neg (mt BitVec.le_def.mp fits), BitVec.toNat_sub_of_le, full, old]
    exact BitVec.le_def.mpr (by rw [old, full]; exact mono)

/-! ## What an expansion comes to -/

namespace Frame

def cost (required : Nat) (f : Frame) : Nat :=
  calculateMemoryExpansionCost f.memory.length (roundUp required)

def Pays (required : Nat) (f : Frame) : Prop :=
  required ≤ maxRequiredMemorySize ∧ f.cost required ≤ f.gas.toNat

instance (required : Nat) (f : Frame) : Decidable (f.Pays required) := by
  unfold Pays; infer_instance

/-- The frame with memory of at least a size, zeros where it is new. -/
def grown (required : Nat) (f : Frame) : Frame where
  memory := f.memory ++ List.replicate (roundUp required - f.memory.length) 0
  gas := f.gas - BitVec.ofNat 64 (f.cost required)

def expanded (required : Nat) (f : Frame) : Option Frame :=
  if f.Pays required then some (f.grown required) else none

theorem chargeGas_eq {gasCost : U64} {cost : Nat} (f : Frame) (h : gasCost.toNat = cost) : f.chargeGas gasCost =
      if cost ≤ f.gas.toNat then some { f with gas := f.gas - BitVec.ofNat 64 cost } else none := by
  subst h
  have same : BitVec.ofNat 64 gasCost.toNat = gasCost :=
    (BitVec.ofNat_toNat 64 gasCost).trans (BitVec.setWidth_eq gasCost)
  rw [chargeGas, same]
  by_cases short : f.gas < gasCost
  · rw [if_pos short, if_neg (Nat.not_le.mpr short)]
  · rw [if_neg short, if_pos (Nat.le_of_not_lt short)]

theorem expandMemoryAndChargeGas_eq {f : Frame} (room : f.memory.length ≤ maxRequiredMemorySize)
    (requiredSize : U64) : f.expandMemoryAndChargeGas requiredSize = f.expanded requiredSize.toNat := by
  have limit := maxRequired_lt
  have size : (BitVec.ofNat 64 f.memory.length).toNat = f.memory.length := by
    rw [BitVec.toNat_ofNat]
    exact Nat.mod_eq_of_lt (by omega)
  rw [expandMemoryAndChargeGas, expanded]
  by_cases large : requiredSize.toNat > maxRequiredMemorySize
  · rw [if_pos (BitVec.lt_def.mpr (toNat_maxRequired ▸ large)),
      if_neg fun pays : f.Pays _ => absurd pays.1 (Nat.not_le.mpr large)]
  · have small : requiredSize.toNat ≤ maxRequiredMemorySize := Nat.le_of_not_gt large
    have aligned := toNat_aligned small
    have paid : (calculateMemoryExpansionCost64 (BitVec.ofNat 64 f.memory.length)
        ((requiredSize + 31) / 32 * 32)).toNat = f.cost requiredSize.toNat := by
      rw [toNat_expansionCost64 (Nat.le_trans size.le room) (aligned ▸ roundUp_le_max small), size, aligned, cost]
    rw [if_neg fun h => large (toNat_maxRequired ▸ BitVec.lt_def.mp h)]
    dsimp only
    rw [chargeGas_eq f paid]
    by_cases pays : f.cost requiredSize.toNat ≤ f.gas.toNat
    · rw [if_pos pays, if_pos (show f.Pays _ from ⟨small, pays⟩)]
      simp only [Option.bind_eq_bind, Option.bind_some, grown, BitVec.lt_def, gt_iff_lt, size, aligned]
      split
      · rfl
      · next enough =>
        rw [Nat.sub_eq_zero_of_le (Nat.le_of_not_lt enough), List.replicate_zero, List.append_nil]
        rfl
    · rw [if_neg pays, if_neg fun h : f.Pays _ => pays h.2]
      rfl

theorem expanded_of_large {required : Nat} (f : Frame) (large : maxRequiredMemorySize < required) :
    f.expanded required = none :=
  if_neg fun pays => absurd pays.1 (Nat.not_le.mpr large)

theorem expanded_of_le {required : Nat} {f : Frame} (small : required ≤ maxRequiredMemorySize)
    (enough : roundUp required ≤ f.memory.length) : f.expanded required = some f := by
  have free : f.cost required = 0 := by
    rw [cost, calculateMemoryExpansionCost, if_pos enough]
  rw [expanded, if_pos (show f.Pays required from ⟨small, free ▸ Nat.zero_le _⟩), grown, free,
    Nat.sub_eq_zero_of_le enough, List.replicate_zero, List.append_nil]
  simp

theorem expanded_zero (f : Frame) : f.expanded 0 = some f :=
  expanded_of_le (Nat.zero_le _) (Nat.zero_le _)

theorem toNat_setWidth_of_lt {v : Word} (h : v.toNat < 2 ^ 64) : (v.setWidth 64).toNat = v.toNat := by
  rw [BitVec.toNat_setWidth]
  exact Nat.mod_eq_of_lt h

theorem lt_allOnes_sub_iff (offset size : U64) :
    BitVec.allOnes 64 - size < offset ↔ 2 ^ 64 ≤ offset.toNat + size.toNat := by
  have le : size ≤ BitVec.allOnes 64 := BitVec.le_def.mpr (by
    rw [BitVec.toNat_allOnes]
    exact Nat.le_sub_one_of_lt size.isLt)
  have lt := size.isLt
  rw [BitVec.lt_def, BitVec.toNat_sub_of_le le, BitVec.toNat_allOnes]
  omega

theorem toNat_add_of_fits {offset size : U64} (fits : ¬ 2 ^ 64 ≤ offset.toNat + size.toNat) :
    (offset + size).toNat = offset.toNat + size.toNat := by
  rw [BitVec.toNat_add]
  exact Nat.mod_eq_of_lt (Nat.lt_of_not_le fits)

variable {f : Frame} (room : f.memory.length ≤ maxRequiredMemorySize)

include room

theorem checkMemoryExpand64_eq (offset : Word)
    (size : U64) : f.checkMemoryExpand64 offset size = f.expanded (offset.toNat + size.toNat) := by
  have limit := maxRequired_lt
  rw [checkMemoryExpand64]
  by_cases far : offset.toNat > 2 ^ 64 - 1
  · rw [if_pos far, expanded_of_large f (by omega)]
  · have near := toNat_setWidth_of_lt (v := offset) (by omega)
    rw [if_neg far]
    dsimp only
    have test := lt_allOnes_sub_iff (offset.setWidth 64) size
    by_cases wraps : 2 ^ 64 ≤ (offset.setWidth 64).toNat + size.toNat
    · rw [if_pos (test.mpr wraps), expanded_of_large f (by omega)]
    · rw [if_neg (test.not.mpr wraps), expandMemoryAndChargeGas_eq room, toNat_add_of_fits wraps, near]

/-- **The interpreter's check**, for every region. -/
theorem checkMemoryExpandAndChargeGas_eq (offset size : Word) :
    f.checkMemoryExpandAndChargeGas offset size = f.expanded (demanded offset size) := by
  have limit := maxRequired_lt
  rw [checkMemoryExpandAndChargeGas, demanded]
  split
  · exact (expanded_zero f).symm
  · split
    · rw [expanded_of_large f (by omega)]
    · rw [checkMemoryExpand64_eq room, toNat_setWidth_of_lt (by omega)]

end Frame

/-! ## The buffer of an instance -/

/-- Compiled code on an instance comes to what is expected of a frame. -/
def Grown (r : Except Stop Instance) : Option Frame → Prop
  | none => r = .error .gasLimitExceeded
  | some f => ∃ s, r = .ok s ∧ s.view = f

theorem Grown.bind {r : Except Stop Instance} {o : Option Frame} (h : Grown r o)
    {next : Instance → Except Stop Instance} {follow : Frame → Option Frame}
    (step : ∀ s, o = some s.view → Grown (next s) (follow s.view)) : Grown (r >>= next) (o >>= follow) := by
  cases o with
  | none =>
    rw [show r = .error .gasLimitExceeded from h]
    rfl
  | some f =>
    obtain ⟨s, rfl, rfl⟩ := h
    exact step s rfl

namespace Instance

theorem length_view (s : Instance) : s.view.memory.length = s.memorySize.toNat := by
  rw [view, List.length_take, s.length_buffer]
  exact Nat.min_eq_left s.room

theorem view_room (s : Instance) : s.view.memory.length ≤ maxRequiredMemorySize :=
  s.length_view ▸ s.room

theorem chargeGas_grown (gasCost : U64) (s : Instance) : Grown (s.chargeGas gasCost) (s.view.chargeGas gasCost) := by
  have same : s.view.gas = s.gas := rfl
  rw [chargeGas, Frame.chargeGas, same]
  split
  · rfl
  · exact ⟨_, rfl, rfl⟩

theorem take_extended {newSize : U64} {s : Instance} (more : newSize > s.memorySize) :
    (s.extended newSize).take newSize.toNat =
      s.view.memory ++ List.replicate (newSize.toNat - s.view.memory.length) 0 := by
  have lt : s.memorySize.toNat < newSize.toNat := more
  have size : (newSize - s.memorySize).toNat = newSize.toNat - s.memorySize.toNat :=
    BitVec.toNat_sub_of_le (BitVec.le_of_lt more)
  have length := s.length_view
  have exact : newSize.toNat = (s.view.memory ++
      List.replicate (newSize.toNat - s.memorySize.toNat) (0 : UInt8)).length := by
    rw [List.length_append, List.length_replicate, length]
    omega
  rw [extended, overwrite, size, length]
  exact List.take_left' exact.symm

theorem expandMemoryNoGas_view (s : Instance) (requiredSize : U64)
    (small : requiredSize.toNat ≤ maxRequiredMemorySize) :
    Grown (s.expandMemoryNoGas requiredSize) (some { s.view with
      memory := s.view.memory ++ List.replicate (roundUp requiredSize.toNat - s.view.memory.length) 0 }) := by
  have aligned := toNat_aligned small
  rw [expandMemoryNoGas]
  dsimp only
  by_cases more : (requiredSize + 31) / 32 * 32 > s.memorySize
  · have zeroed := take_extended more
    have inside := roundUp_le_max small
    rw [← aligned] at inside ⊢
    rw [dif_pos more, dif_pos inside, ← zeroed]
    exact ⟨_, rfl, rfl⟩
  · have enough : roundUp requiredSize.toNat ≤ s.view.memory.length := by
      rw [← aligned, length_view]
      exact Nat.le_of_not_lt more
    rw [dif_neg more, Nat.sub_eq_zero_of_le enough, List.replicate_zero, List.append_nil]
    exact ⟨s, rfl, rfl⟩

end Instance

theorem Frame.expanded_eq_charge {required : Nat} {gasCost : U64} {f : Frame}
    (small : required ≤ maxRequiredMemorySize) (cost : gasCost.toNat = f.cost required) :
    f.expanded required = (f.chargeGas gasCost >>= fun f => some { f with
      memory := f.memory ++ List.replicate (roundUp required - f.memory.length) 0 }) := by
  rw [chargeGas_eq f cost, expanded]
  by_cases pays : f.cost required ≤ f.gas.toNat
  · rw [if_pos pays, if_pos (show f.Pays required from ⟨small, pays⟩)]
    rfl
  · rw [if_neg pays, if_neg fun h : f.Pays required => pays h.2]
    rfl

namespace Instance

theorem expandMemory_grown {requiredSize : U64} (s : Instance) (small : requiredSize.toNat ≤ maxRequiredMemorySize) :
    Grown (s.expandMemory requiredSize) (s.view.expanded requiredSize.toNat) := by
  have aligned := toNat_aligned small
  have cost : (calculateMemoryExpansionCost64 s.memorySize ((requiredSize + 31) / 32 * 32)).toNat =
      s.view.cost requiredSize.toNat := by
    rw [toNat_expansionCost64 s.room (aligned ▸ roundUp_le_max small), aligned, Frame.cost, length_view]
  rw [Frame.expanded_eq_charge small cost]
  exact (s.chargeGas_grown _).bind fun s _ => s.expandMemoryNoGas_view _ small

/-- **Compiled code grows the memory as specified.** -/
theorem expandMemoryIR64_grown (requiredSize : U64) (s : Instance) :
    Grown (s.expandMemoryIR64 requiredSize false) (s.view.expanded requiredSize.toNat) := by
  rw [expandMemoryIR64, Bool.false_or]
  by_cases large : requiredSize.toNat > maxRequiredMemorySize
  · rw [if_pos (decide_eq_true (BitVec.lt_def.mpr (toNat_maxRequired ▸ large))), Frame.expanded_of_large _ large]
    rfl
  · have small : requiredSize.toNat ≤ maxRequiredMemorySize := Nat.le_of_not_gt large
    rw [if_neg (by
      rw [decide_eq_true_eq]
      exact fun h => large (toNat_maxRequired ▸ BitVec.lt_def.mp h))]
    by_cases more : requiredSize > s.memorySize
    · have lt : s.memorySize.toNat < requiredSize.toNat := more
      have aligned := toNat_shifted small
      have limit := roundUp_le_max small
      have again : roundUp (roundUp requiredSize.toNat) = roundUp requiredSize.toNat := by
        rw [roundUp, roundUp_words, roundUp]
      have old := toNat_gasCostIR64 s.room
      have new := toNat_gasCostIR64 (x := ((requiredSize + 31) >>> 5) <<< 5) (aligned ▸ limit)
      rw [aligned] at new
      have mono : calculateMemoryGasCostIR s.memorySize.toNat ≤
          calculateMemoryGasCostIR (roundUp requiredSize.toNat) :=
        gasCost_mono (Nat.le_trans lt.le (le_roundUp _))
      have cost : (calculateMemoryGasCostIR64 (((requiredSize + 31) >>> 5) <<< 5) -
          calculateMemoryGasCostIR64 s.memorySize).toNat = s.view.cost requiredSize.toNat := by
        rw [BitVec.toNat_sub_of_le (BitVec.le_def.mpr (by rw [old, new]; exact mono)), old, new, Frame.cost,
          length_view, calculateMemoryExpansionCost, if_neg (Nat.not_le.mpr (Nat.lt_of_lt_of_le lt (le_roundUp _)))]
        rfl
      rw [if_pos more, Frame.expanded_eq_charge small cost]
      refine (s.chargeGas_grown _).bind fun s _ => ?_
      have grown := s.expandMemoryNoGas_view (((requiredSize + 31) >>> 5) <<< 5) (aligned ▸ limit)
      rw [aligned, again] at grown
      exact grown
    · have enough : requiredSize.toNat ≤ s.memorySize.toNat := Nat.le_of_not_lt more
      rw [if_neg more, Frame.expanded_of_le small (s.length_view ▸ roundUp_le_of_whole s.whole enough)]
      exact ⟨s, rfl, rfl⟩

theorem expandMemoryIR64_overflow (requiredSize : U64) (s : Instance) :
    s.expandMemoryIR64 requiredSize true = .error .gasLimitExceeded := if_pos rfl

end Instance

/-! ## The runtime's checks -/

/-- The runtime's check comes to what is expected of a frame. One that fails raises the exception. Only
where all bits of the gas are set is there no larger charge to raise it with, and then the check is false and
changes nothing. -/
def Checked (s : Instance) (r : Except Stop (Bool × Instance)) : Option Frame → Prop
  | none => r = .error .gasLimitExceeded ∨ s.gas = BitVec.allOnes 64 ∧ r = .ok (false, s)
  | some f => ∃ s', r = .ok (true, s') ∧ s'.view = f

def Reaches (n : Nat) : Option U64 → Prop
  | none => 2 ^ 64 ≤ n
  | some r => r.toNat = n

theorem reaches_calc (offset size : U64) :
    Reaches (offset.toNat + size.toNat) (Instance.calcRequiredMemorySize offset size) := by
  have test := Frame.lt_allOnes_sub_iff offset size
  rw [Instance.calcRequiredMemorySize]
  by_cases wraps : 2 ^ 64 ≤ offset.toNat + size.toNat
  · rw [if_pos (test.mpr wraps)]
    exact wraps
  · rw [if_neg (test.not.mpr wraps)]
    exact Frame.toNat_add_of_fits wraps

theorem Reaches.max {m n : Nat} {a b : Option U64} (ha : Reaches m a) (hb : Reaches n b) :
    Reaches (Nat.max m n) (do
      let a ← a
      let b ← b
      pure (if a < b then b else a)) := by
  cases a with
  | none => exact Nat.le_trans ha (Nat.le_max_left m n)
  | some x =>
    cases b with
    | none => exact Nat.le_trans hb (Nat.le_max_right m n)
    | some y =>
      subst ha hb
      show (if x < y then y else x).toNat = _
      split
      · next lt => exact (Nat.max_eq_right (Nat.le_of_lt lt)).symm
      · next ge => exact (Nat.max_eq_left (Nat.le_of_not_lt ge)).symm

namespace Instance

theorem refuse_checked (s : Instance) :
    Checked s (do
      let s ← s.chargeGas (s.gas + 1)
      pure (false, s)) none := by
  by_cases all : s.gas = BitVec.allOnes 64
  · have wraps : s.gas + 1 = 0 := by rw [all]; decide
    have free : s.chargeGas 0 = .ok s := by
      rw [chargeGas, if_neg (show ¬ s.gas < 0 from Nat.not_lt_zero _)]
      simp
    rw [wraps, free]
    exact .inr ⟨all, rfl⟩
  · have more : s.gas < s.gas + 1 := by
      have ne : s.gas.toNat ≠ 2 ^ 64 - 1 := fun h => all (BitVec.eq_of_toNat_eq h)
      have lt := s.gas.isLt
      rw [BitVec.lt_def, BitVec.toNat_add]
      show s.gas.toNat < (s.gas.toNat + 1) % 2 ^ 64
      omega
    rw [chargeGas, if_pos more]
    exact .inl rfl

theorem Grown.checked {s : Instance} {r : Except Stop Instance} {o : Option Frame} (h : Grown r o) :
    Checked s (do
      let s ← r
      pure (true, s)) o := by
  cases o with
  | none =>
    rw [show r = .error .gasLimitExceeded from h]
    exact .inl rfl
  | some f =>
    obtain ⟨s', rfl, rfl⟩ := h
    exact ⟨s', rfl, rfl⟩

theorem expandTo_checked {n : Nat} {requiredSize : Option U64} (reaches : Reaches n requiredSize)
    (s : Instance) : Checked s (s.expandTo requiredSize) (s.view.expanded n) := by
  have limit := maxRequired_lt
  cases requiredSize with
  | none =>
    rw [Frame.expanded_of_large _ (Nat.lt_of_lt_of_le (by omega) reaches)]
    exact s.refuse_checked
  | some requiredSize =>
    subst reaches
    rw [expandTo]
    by_cases large : requiredSize.toNat > maxRequiredMemorySize
    · rw [if_pos (BitVec.lt_def.mpr (toNat_maxRequired ▸ large)), Frame.expanded_of_large _ large]
      exact s.refuse_checked
    · rw [if_neg fun h => large (toNat_maxRequired ▸ BitVec.lt_def.mp h)]
      exact Grown.checked (s.expandMemory_grown (Nat.le_of_not_gt large))

def ends (offset size : U64) : Nat := if size = 0 then 0 else offset.toNat + size.toNat

theorem expandMemoryChecked_checked (offset size : U64) (s : Instance) :
    Checked s (s.expandMemoryChecked offset size) (s.view.expanded (ends offset size)) := by
  rw [expandMemoryChecked, ends]
  split
  · rw [Frame.expanded_zero]
    exact ⟨s, rfl, rfl⟩
  · exact s.expandTo_checked (reaches_calc offset size)

theorem expandMemoryCheckedBoth_checked (offsetA sizeA offsetB sizeB : U64) (s : Instance) :
    Checked s (s.expandMemoryCheckedBoth offsetA sizeA offsetB sizeB)
      (s.view.expanded (max (ends offsetA sizeA) (ends offsetB sizeB))) := by
  rw [expandMemoryCheckedBoth]
  by_cases noA : sizeA = 0
  · have zero : ends offsetA sizeA = 0 := if_pos noA
    rw [zero, Nat.zero_max]
    by_cases noB : sizeB = 0
    · have zero : ends offsetB sizeB = 0 := if_pos noB
      rw [if_pos ⟨noA, noB⟩, zero, Frame.expanded_zero]
      exact ⟨s, rfl, rfl⟩
    · rw [if_neg fun h => noB h.2, if_neg noB, if_pos noA]
      exact s.expandMemoryChecked_checked offsetB sizeB
  · rw [if_neg fun h => noA h.1]
    by_cases noB : sizeB = 0
    · have zero : ends offsetB sizeB = 0 := if_pos noB
      rw [if_pos noB, zero, Nat.max_zero]
      exact s.expandMemoryChecked_checked offsetA sizeA
    · have endA : ends offsetA sizeA = offsetA.toNat + sizeA.toNat := if_neg noA
      have endB : ends offsetB sizeB = offsetB.toNat + sizeB.toNat := if_neg noB
      rw [if_neg noB, if_neg noA, endA, endB]
      exact s.expandTo_checked ((reaches_calc offsetA sizeA).max (reaches_calc offsetB sizeB))

/-- A region that fits is narrowed to one with the same end, and one that does not stops compiled code. -/
theorem normalizeOffsetWithSize_cases (offset size : Word) :
    (∃ o z, normalizeOffsetWithSize offset size = .ok (o, z) ∧ ends o z = demanded offset size) ∨
      normalizeOffsetWithSize offset size = .error .gasLimitExceeded ∧
        maxRequiredMemorySize < demanded offset size := by
  have limit := maxRequired_lt
  rw [normalizeOffsetWithSize]
  by_cases large : 2 ^ 64 ≤ size.toNat
  · have some : size ≠ 0 := by
      rintro rfl
      exact absurd large (by decide)
    rw [if_pos large, demanded, if_neg some]
    exact .inr ⟨rfl, by omega⟩
  · have same := Frame.toNat_setWidth_of_lt (Nat.lt_of_not_le large)
    have zero : size.setWidth 64 = (0 : U64) ↔ size = 0 := by
      rw [← BitVec.toNat_inj, ← BitVec.toNat_inj, same]
      rfl
    rw [if_neg large]
    by_cases none : size = 0
    · rw [if_neg fun h => h.1 (zero.mpr none), demanded, if_pos none]
      exact .inl ⟨_, _, rfl, if_pos (zero.mpr none)⟩
    · rw [demanded, if_neg none]
      by_cases far : 2 ^ 64 ≤ offset.toNat
      · rw [if_pos ⟨zero.not.mpr none, far⟩]
        exact .inr ⟨rfl, by omega⟩
      · rw [if_neg fun h => far h.2, if_neg (zero.not.mpr none)]
        refine .inl ⟨_, _, rfl, ?_⟩
        rw [ends, if_neg (zero.not.mpr none), same, Frame.toNat_setWidth_of_lt (Nat.lt_of_not_le far)]

theorem expandRegion_checked (offset size : Word) (s : Instance) :
    Checked s (s.expandRegion offset size) (s.view.expanded (demanded offset size)) := by
  rw [expandRegion]
  obtain ⟨o, z, narrowed, same⟩ | ⟨stops, large⟩ := normalizeOffsetWithSize_cases offset size
  · rw [narrowed, ← same]
    exact s.expandMemoryChecked_checked o z
  · rw [stops, Frame.expanded_of_large _ large]
    exact .inl rfl

theorem expandRegions_checked (offsetA sizeA offsetB sizeB : Word) (s : Instance) :
    Checked s (s.expandRegions offsetA sizeA offsetB sizeB)
      (s.view.expanded (max (demanded offsetA sizeA) (demanded offsetB sizeB))) := by
  rw [expandRegions]
  obtain ⟨o, z, narrowed, same⟩ | ⟨stops, large⟩ := normalizeOffsetWithSize_cases offsetA sizeA
  · obtain ⟨o', z', narrowed', same'⟩ | ⟨stops, large⟩ := normalizeOffsetWithSize_cases offsetB sizeB
    · rw [narrowed, narrowed', ← same, ← same']
      exact s.expandMemoryCheckedBoth_checked o z o' z'
    · rw [narrowed, stops, Frame.expanded_of_large _ (Nat.lt_of_lt_of_le large (Nat.le_max_right _ _))]
      exact .inl rfl
  · rw [stops, Frame.expanded_of_large _ (Nat.lt_of_lt_of_le large (Nat.le_max_left _ _))]
    exact .inl rfl

end Instance

/-! ## One expansion after another -/

namespace Frame

theorem length_grown (required : Nat) (f : Frame) :
    (f.grown required).memory.length = max f.memory.length (roundUp required) := by
  simp only [grown, List.length_append, List.length_replicate]
  omega

theorem cost_grown (a b : Nat) (f : Frame) : f.cost a + (f.grown a).cost b = f.cost (max a b) := by
  rw [cost, cost, cost, length_grown, roundUp_max, calculateMemoryExpansionCost_add]

theorem toNat_sub_ofNat {gas : U64} {cost : Nat} (pays : cost ≤ gas.toNat) :
    (gas - BitVec.ofNat 64 cost).toNat = gas.toNat - cost := by
  have lt := gas.isLt
  have small : (BitVec.ofNat 64 cost).toNat = cost := by
    rw [BitVec.toNat_ofNat]
    exact Nat.mod_eq_of_lt (by omega)
  rw [BitVec.toNat_sub_of_le (BitVec.le_def.mpr (small.symm ▸ pays)), small]

theorem sub_ofNat_sub_ofNat (gas : U64) (a b : Nat) :
    gas - BitVec.ofNat 64 a - BitVec.ofNat 64 b = gas - BitVec.ofNat 64 (a + b) := by
  rw [BitVec.ofNat_add]
  bv_omega

theorem grown_grown (a b : Nat) (f : Frame) : (f.grown a).grown b = f.grown (max a b) := by
  ext1
  · show f.memory ++ List.replicate _ 0 ++ List.replicate _ 0 = f.memory ++ List.replicate _ 0
    rw [List.append_assoc, List.replicate_append_replicate, length_grown, roundUp_max]
    congr 2
    omega
  · show f.gas - BitVec.ofNat 64 (f.cost a) - BitVec.ofNat 64 ((f.grown a).cost b) = _
    rw [sub_ofNat_sub_ofNat, cost_grown]
    rfl

theorem le_length_of_expanded {required : Nat} {f g : Frame} (h : f.expanded required = some g) :
    required ≤ g.memory.length := by
  rw [expanded] at h
  split at h
  · cases h
    rw [length_grown]
    exact Nat.le_trans (le_roundUp required) (Nat.le_max_right _ _)
  · cases h

theorem expanded_expanded (a b : Nat) (f : Frame) :
    (f.expanded a >>= fun f => f.expanded b) = f.expanded (max a b) := by
  have sum := cost_grown a b f
  by_cases pays : f.Pays a
  · have left : (f.grown a).gas.toNat = f.gas.toNat - f.cost a := toNat_sub_ofNat pays.2
    have both : (f.grown a).Pays b ↔ f.Pays (max a b) := by
      have small := pays.1
      have paid := pays.2
      rw [Pays, Pays, left]
      omega
    have first : f.expanded a = some (f.grown a) := if_pos pays
    rw [first]
    show (f.grown a).expanded b = _
    rw [expanded, expanded, grown_grown]
    simp only [both]
  · have short : ¬ f.Pays (max a b) := by
      rw [Pays] at pays ⊢
      omega
    rw [expanded, expanded, if_neg pays, if_neg short]
    rfl

theorem checkMemory_checkMemory {f : Frame} (room : f.memory.length ≤ maxRequiredMemorySize)
    (offsetA sizeA offsetB sizeB : Word) : (f.checkMemoryExpandAndChargeGas offsetA sizeA >>= fun f =>
        f.checkMemoryExpandAndChargeGas offsetB sizeB) =
      f.expanded (max (demanded offsetA sizeA) (demanded offsetB sizeB)) := by
  rw [← expanded_expanded, checkMemoryExpandAndChargeGas_eq room]
  by_cases pays : f.Pays (demanded offsetA sizeA)
  · have first : f.expanded (demanded offsetA sizeA) = some (f.grown _) := if_pos pays
    rw [first]
    refine checkMemoryExpandAndChargeGas_eq ?_ offsetB sizeB
    rw [length_grown]
    exact Nat.max_le.mpr ⟨room, roundUp_le_max pays.1⟩
  · have first : f.expanded (demanded offsetA sizeA) = none := if_neg pays
    rw [first]
    rfl

theorem expanded_chargeGas (required : Nat) (gasCost : U64) (f : Frame) :
    (f.expanded required >>= fun f => f.chargeGas gasCost) =
      (f.chargeGas gasCost >>= fun f => f.expanded required) := by
  have charge (f : Frame) := chargeGas_eq f (rfl : gasCost.toNat = gasCost.toNat)
  have less {cost : Nat} (enough : cost ≤ f.gas.toNat) := toNat_sub_ofNat enough
  have same : { f.grown required with gas := (f.grown required).gas - BitVec.ofNat 64 gasCost.toNat } =
      Frame.grown required { f with gas := f.gas - BitVec.ofNat 64 gasCost.toNat } := by
    ext1
    · rfl
    · show f.gas - BitVec.ofNat 64 (f.cost required) - _ = f.gas - _ - BitVec.ofNat 64 (f.cost required)
      rw [sub_ofNat_sub_ofNat, sub_ofNat_sub_ofNat, Nat.add_comm]
  simp only [charge, expanded]
  by_cases pays : f.Pays required <;> by_cases enough : gasCost.toNat ≤ f.gas.toNat
  · have later : gasCost.toNat ≤ (f.grown required).gas.toNat ↔
        Frame.Pays required { f with gas := f.gas - BitVec.ofNat 64 gasCost.toNat } := by
      show _ ≤ (f.gas - BitVec.ofNat 64 (f.cost required)).toNat ↔ _ ∧ f.cost required ≤ (f.gas - _).toNat
      rw [less pays.2, less enough, and_iff_right pays.1]
      have paid := pays.2
      omega
    rw [if_pos pays, if_pos enough, Option.bind_eq_bind, Option.bind_some, same]
    exact if_congr later rfl rfl
  · rw [if_pos pays, if_neg enough]
    exact if_neg fun later => enough (Nat.le_trans later (less pays.2 ▸ Nat.sub_le _ _))
  · rw [if_neg pays, if_pos enough]
    exact (if_neg fun later => pays ⟨later.1, Nat.le_trans later.2 (less enough ▸ Nat.sub_le _ _)⟩).symm
  · rw [if_neg pays, if_neg enough]
    rfl

theorem expanded_chargeGas_bind (required : Nat) (gasCost : U64) (f : Frame) (rest : Frame → Option Frame) :
    (f.expanded required >>= fun f => f.chargeGas gasCost >>= rest) =
      (f.chargeGas gasCost >>= fun f => f.expanded required >>= rest) := by
  rw [← bind_assoc, expanded_chargeGas, bind_assoc]

end Frame

/-! ## The opcodes of compiled code -/

namespace Instance

theorem add_lt_iff (offset size : U64) : offset + size < offset ↔ 2 ^ 64 ≤ offset.toNat + size.toNat := by
  have lt := size.isLt
  have lt' := offset.isLt
  rw [BitVec.lt_def, BitVec.toNat_add]
  omega

theorem toNat_width (k : MemoryOp) : (BitVec.ofNat 64 k.width).toNat = k.width := by
  cases k <;> rfl

theorem checkAccess_grown (k : MemoryOp) (addr value : Word) (s : Instance) :
    Grown (s.checkAccess k addr value) (s.view.expanded (addr.toNat + k.width)) := by
  have limit := maxRequired_lt
  have dep : valueDep value k = 0 := by cases k <;> simp [valueDep]
  rw [checkAccess, normalizeOperandU64, dep]
  by_cases small : addr.toNat < 2 ^ 64
  · have same := Frame.toNat_setWidth_of_lt small
    have wrapped := add_lt_iff (addr.setWidth 64) (BitVec.ofNat 64 k.width)
    rw [same, toNat_width] at wrapped
    have tied : addr.setWidth 64 + BitVec.ofNat 64 k.width + 0 = addr.setWidth 64 + BitVec.ofNat 64 k.width :=
      BitVec.add_zero _
    rw [if_pos small]
    show Grown (s.expandMemoryIR64 (_ + 0) (decide (_ + 0 < _))) _
    rw [tied]
    by_cases wraps : 2 ^ 64 ≤ addr.toNat + k.width
    · rw [decide_eq_true (wrapped.mpr wraps), expandMemoryIR64_overflow,
        Frame.expanded_of_large _ (by omega)]
      rfl
    · have sum := @Frame.toNat_add_of_fits (addr.setWidth 64) (BitVec.ofNat 64 k.width)
        (by rw [same, toNat_width]; exact wraps)
      rw [same, toNat_width] at sum
      rw [decide_eq_false (wrapped.not.mpr wraps), ← sum]
      exact s.expandMemoryIR64_grown _
  · rw [if_neg small, Frame.expanded_of_large _ (by omega)]
    rfl

theorem toNat_limb (v : Word) (i : Nat) : (limb v i).toNat = v.toNat / 2 ^ (64 * i) % 2 ^ 64 := by
  rw [limb, BitVec.toNat_setWidth, BitVec.toNat_ushiftRight, Nat.shiftRight_eq_div_pow]

theorem limbs_eq_zero_iff (v : Word) : limb v 0 ||| limb v 1 ||| limb v 2 ||| limb v 3 = 0 ↔ v = 0 := by
  constructor
  · intro zero
    simp only [BitVec.ofNat_eq_ofNat, BitVec.or_eq_zero_iff] at zero
    obtain ⟨⟨⟨zero0, zero1⟩, zero2⟩, zero3⟩ := zero
    have lt := v.isLt
    have limb0 := toNat_limb v 0
    have limb1 := toNat_limb v 1
    have limb2 := toNat_limb v 2
    have limb3 := toNat_limb v 3
    rw [zero0] at limb0
    rw [zero1] at limb1
    rw [zero2] at limb2
    rw [zero3] at limb3
    apply BitVec.eq_of_toNat_eq
    simp at limb0 limb1 limb2 limb3 ⊢
    omega
  · rintro rfl
    decide

theorem moved_append {dest src size : Nat} {x : Bytes} (inside : dest + size ≤ x.length)
    (inside' : src + size ≤ x.length) (z : Bytes) :
    Frame.moved dest src size (x ++ z) = Frame.moved dest src size x ++ z := by
  have slice : ((x ++ z).drop src).take size = (x.drop src).take size := by
    rw [List.drop_append_of_le_length (by omega), List.take_append_of_le_length]
    rw [List.length_drop]
    omega
  have le := List.length_take_le size (x.drop src)
  rw [Frame.moved, Frame.moved, slice, overwrite_append (by omega)]

theorem memmove_grown {dest src size : U64} {s : Instance} (some : 0 < size.toNat)
    (inside : dest.toNat + size.toNat ≤ s.memorySize.toNat) (inside' : src.toNat + size.toNat ≤ s.memorySize.toNat) :
    Grown (s.memmove dest src size) (.some { s.view with
      memory := Frame.moved dest.toNat src.toNat size.toNat s.view.memory }) := by
  have room := s.room
  have base : s.memoryBase = .buffer := s.allocated fun zero => by
    rw [zero] at inside
    exact absurd inside (by simp; omega)
  rw [memmove, dif_pos ⟨base, by omega, by omega⟩]
  refine ⟨_, rfl, ?_⟩
  ext1
  · have length := s.length_view
    have split : s.buffer = s.view.memory ++ s.buffer.drop s.memorySize.toNat :=
      (List.take_append_drop _ _).symm
    show (Frame.moved dest.toNat src.toNat size.toNat s.buffer).take s.memorySize.toNat = _
    rw [split, moved_append (by omega) (by omega)]
    exact List.take_left' ((length_moved (by omega)).trans length)
  · rfl

theorem normalizeOperandU64_of_lt {v : Word} (small : v.toNat < 2 ^ 64) :
    normalizeOperandU64 v = .ok (v.setWidth 64) := if_pos small

theorem normalizeOperandU64_of_ge {v : Word} (large : 2 ^ 64 ≤ v.toNat) :
    normalizeOperandU64 v = .error .gasLimitExceeded := if_neg (Nat.not_lt.mpr large)

theorem expandEnds_grown (dest src len : U64) (s : Instance) :
    Grown (s.expandMemoryIR64 (if dest + len > src + len then dest + len else src + len)
        (decide (dest + len < dest) || decide (src + len < src)))
      (s.view.expanded (max dest.toNat src.toNat + len.toNat)) := by
  have limit := maxRequired_lt
  have dests := add_lt_iff dest len
  have srcs := add_lt_iff src len
  by_cases wraps : 2 ^ 64 ≤ max dest.toNat src.toNat + len.toNat
  · have wrapped : (decide (dest + len < dest) || decide (src + len < src)) = true := by
      rw [Bool.or_eq_true, decide_eq_true_eq, decide_eq_true_eq, dests, srcs]
      omega
    rw [wrapped, expandMemoryIR64_overflow, Frame.expanded_of_large _ (by omega)]
    rfl
  · have exact : (decide (dest + len < dest) || decide (src + len < src)) = false := by
      rw [decide_eq_false (dests.not.mpr (by omega)), decide_eq_false (srcs.not.mpr (by omega))]
      rfl
    have destEnd := @Frame.toNat_add_of_fits dest len (by omega)
    have srcEnd := @Frame.toNat_add_of_fits src len (by omega)
    have ends : (if dest + len > src + len then dest + len else src + len).toNat =
        max dest.toNat src.toNat + len.toNat := by
      split
      · next more =>
        have lt : (src + len).toNat < (dest + len).toNat := more
        omega
      · next most =>
        have le : ¬ (src + len).toNat < (dest + len).toNat := most
        omega
    rw [exact, ← ends]
    exact s.expandMemoryIR64_grown _

/-- **A copy in compiled code and in the interpreter.** The one pays for the words first and the other for
the memory. -/
theorem handleMCopy_grown (dest src size : Word) (s : Instance) :
    Grown (s.handleMCopy dest src size) (s.view.mcopy dest src size) := by
  have limit := maxRequired_lt
  have zero := limbs_eq_zero_iff size
  rw [handleMCopy, Frame.mcopy]
  by_cases none : size = 0
  · rw [if_pos (zero.mpr none), if_pos none]
    exact ⟨s, rfl, rfl⟩
  · have larger : demanded (if dest.toNat < src.toNat then src else dest) size =
        max dest.toNat src.toNat + size.toNat := by
      rw [demanded, if_neg none]
      split <;> omega
    rw [if_neg (zero.not.mpr none), if_neg none, Frame.checkMemoryExpandAndChargeGas_eq s.view_room, larger]
    by_cases fits : dest.toNat < 2 ^ 64 ∧ src.toNat < 2 ^ 64 ∧ size.toNat < 2 ^ 64
    · obtain ⟨smallDest, smallSrc, small⟩ := fits
      have len := Frame.toNat_setWidth_of_lt small
      have destOffset := Frame.toNat_setWidth_of_lt smallDest
      have srcOffset := Frame.toNat_setWidth_of_lt smallSrc
      rw [normalizeOperandU64_of_lt smallDest, normalizeOperandU64_of_lt smallSrc, normalizeOperandU64_of_lt small]
      show Grown (s.chargeGas ((size.setWidth 64 + 31) >>> 5 * 3) >>= fun s => _) _
      rw [words_shifted, Frame.expanded_chargeGas_bind]
      refine (s.chargeGas_grown _).bind fun s _ => ?_
      have ends := s.expandEnds_grown (dest.setWidth 64) (src.setWidth 64) (size.setWidth 64)
      rw [destOffset, srcOffset, len] at ends
      refine ends.bind fun s grown => ?_
      have reach := Frame.le_length_of_expanded grown
      rw [length_view] at reach
      refine memmove_grown ?_ (by omega) (by omega)
      rw [len]
      exact Nat.pos_of_ne_zero fun zero => none (BitVec.eq_of_toNat_eq zero)
    · have large : maxRequiredMemorySize < max dest.toNat src.toNat + size.toNat := by omega
      rw [Frame.expanded_of_large _ large]
      by_cases smallDest : dest.toNat < 2 ^ 64
      · rw [normalizeOperandU64_of_lt smallDest]
        by_cases smallSrc : src.toNat < 2 ^ 64
        · rw [normalizeOperandU64_of_lt smallSrc, normalizeOperandU64_of_ge (v := size) (by omega)]
          rfl
        · rw [normalizeOperandU64_of_ge (v := src) (by omega)]
          rfl
      · rw [normalizeOperandU64_of_ge (v := dest) (by omega)]
        rfl

end Instance

/-! ## The forms that the machine executes -/

section Machine

open Effect Program

variable {host : Host} {m : Machine}

def frameOf (m : Machine) : Frame := ⟨m.memory, BitVec.ofNat 64 m.gas⟩

/-- The interpreter's check of `Evm.Handlers` is the one in 64 bits, for gas of 64 bits. -/
theorem run_checkMemory (gas : m.gas < 2 ^ 64) (room : m.memory.length ≤ maxRequiredMemorySize) (offset size : Word) :
    (Handler.checkMemoryExpandAndChargeGas offset size).run (Machine.handle host) m =
      match (frameOf m).checkMemoryExpandAndChargeGas offset size with
      | none => (.error (.fail .outOfGas), m)
      | some f => (.ok (), { m with memory := f.memory, gas := f.gas.toNat }) := by
  have same : (BitVec.ofNat 64 m.gas).toNat = m.gas := by
    rw [BitVec.toNat_ofNat]
    exact Nat.mod_eq_of_lt gas
  have cost (n : Nat) : (frameOf m).cost n = m.growCost n := rfl
  have pays (n : Nat) : (frameOf m).Pays n ↔ n ≤ maxRequiredMemorySize ∧ m.growCost n ≤ m.gas := by
    rw [Frame.Pays, cost]
    show _ ∧ _ ≤ (BitVec.ofNat 64 m.gas).toNat ↔ _
    rw [same]
  rw [Handler.run_checkMemoryExpandAndChargeGas, Frame.checkMemoryExpandAndChargeGas_eq room, Frame.expanded]
  by_cases enough : (frameOf m).Pays (demanded offset size)
  · rw [if_pos enough, if_pos ((pays _).mp enough)]
    have left : ((frameOf m).grown (demanded offset size)).gas.toNat =
        m.gas - m.growCost (demanded offset size) := by
      have sub := Frame.toNat_sub_ofNat enough.2
      rw [cost] at sub
      exact sub.trans (congrArg (· - _) same)
    dsimp only
    rw [left]
    rfl
  · rw [if_neg enough, if_neg ((pays _).not.mp enough)]

end Machine

theorem expandMemoryIR_grown {d : DirectState} {s : Instance} (memory : d.memory = s.view.memory)
    (gas : d.gas = s.gas.toNat) (requiredSize : U64) :
    match s.view.expanded requiredSize.toNat with
    | none => expandMemoryIR requiredSize.toNat false d = .error .gasLimitExceeded
    | some f => ∃ d', expandMemoryIR requiredSize.toNat false d = .ok d' ∧ d'.memory = f.memory ∧
        d'.gas = f.gas.toNat := by
  have length : d.memory.length = s.memorySize.toNat := by rw [memory, s.length_view]
  rw [expandMemoryIR_eq, Frame.expanded]
  by_cases more : requiredSize.toNat ≤ d.memory.length
  · -- nothing is paid on either side
    have enough : roundUp requiredSize.toNat ≤ s.view.memory.length := by
      rw [← memory, length]
      exact roundUp_le_of_whole s.whole (length ▸ more)
    have paid : calculateMemoryGasCostIR requiredSize.toNat ≤ d.budget :=
      Nat.le_trans (gasCost_mono more) (Nat.le_add_left _ _)
    by_cases small : requiredSize.toNat ≤ maxRequiredMemorySize
    · have same := Frame.expanded_of_le small enough
      rw [Frame.expanded] at same
      rw [same, if_pos (show Affordable _ _ from ⟨small, paid⟩), DirectState.grow, if_pos more]
      exact ⟨d, rfl, memory, gas⟩
    · rw [if_neg fun h : s.view.Pays _ => small h.1, if_neg fun h : Affordable _ _ => small h.1]
  · have mono : calculateMemoryGasCostIR d.memory.length ≤ calculateMemoryGasCostIR requiredSize.toNat :=
      gasCost_mono (Nat.le_of_not_le more)
    have aligned := gasCost_roundUp requiredSize.toNat
    have cost : s.view.cost requiredSize.toNat =
        calculateMemoryGasCostIR requiredSize.toNat - calculateMemoryGasCostIR d.memory.length := by
      rw [Frame.cost, ← memory, calculateMemoryExpansionCost, if_neg, ← aligned]
      · rfl
      · have le := le_roundUp requiredSize.toNat
        omega
    have view : s.view.gas = s.gas := rfl
    have pays : s.view.Pays requiredSize.toNat ↔ Affordable d.budget requiredSize.toNat := by
      rw [Frame.Pays, Affordable, cost, DirectState.budget, gas, view]
      omega
    by_cases enough : s.view.Pays requiredSize.toNat
    · rw [if_pos enough, if_pos (pays.mp enough), DirectState.grow, if_neg more]
      refine ⟨_, rfl, congrArg (fun x : Bytes => x ++ List.replicate (_ - x.length) 0) memory, ?_⟩
      have left := Frame.toNat_sub_ofNat enough.2
      show d.gas + _ - _ = (s.view.gas - BitVec.ofNat 64 _).toNat
      rw [left, cost, view, aligned]
      omega
    · rw [if_neg enough, if_neg (pays.not.mp enough)]

/-! ## The three places agree -/

/-- **Memory expansion agrees between compiled code, the runtime and the interpreter.** For an instance with
any bytes beyond its memory and the frame with the same memory and gas: one region and two regions in the
runtime, the loads, stores and copies of compiled code, and the interpreter's checks fail alike, and
otherwise leave the same memory and the same gas. What that is, is said without 64-bit arithmetic: the memory
with zeros up to the end of the region, for its cost. -/
theorem expansions_agree (s : Instance) (offset size offsetB sizeB value : Word) :
    Checked s (s.expandRegion offset size) (s.view.checkMemoryExpandAndChargeGas offset size) ∧
    Checked s (s.expandRegions offset size offsetB sizeB) (s.view.checkMemoryExpandAndChargeGas offset size >>= fun f =>
        f.checkMemoryExpandAndChargeGas offsetB sizeB) ∧ (∀ k : MemoryOp, Grown (s.checkAccess k offset value)
      (s.view.checkMemoryExpand64 offset (BitVec.ofNat 64 k.width))) ∧
    Grown (s.handleMCopy offset offsetB size) (s.view.mcopy offset offsetB size) ∧
    s.view.checkMemoryExpandAndChargeGas offset size = s.view.expanded (demanded offset size) ∧
    ∀ k : MemoryOp, s.view.checkMemoryExpand64 offset (BitVec.ofNat 64 k.width) =
      s.view.expanded (offset.toNat + k.width) := by
  have one := Frame.checkMemoryExpandAndChargeGas_eq s.view_room offset size
  have access (k : MemoryOp) : s.view.checkMemoryExpand64 offset (BitVec.ofNat 64 k.width) =
      s.view.expanded (offset.toNat + k.width) := by
    rw [Frame.checkMemoryExpand64_eq s.view_room, Instance.toNat_width]
  refine ⟨?_, ?_, fun k => ?_, s.handleMCopy_grown offset offsetB size, one, access⟩
  · rw [one]
    exact s.expandRegion_checked offset size
  · rw [Frame.checkMemory_checkMemory s.view_room]
    exact s.expandRegions_checked offset size offsetB sizeB
  · rw [access]
    exact s.checkAccess_grown k offset value

def largestEnd (accesses : List (MemoryOp × Word × Word)) : Nat :=
  accesses.foldr (fun a n => max (a.2.1.toNat + a.1.width) n) 0

/-- **Compiled accesses one after another** come to one expansion, up to the largest end. -/
theorem accesses_grown (s : Instance) (accesses : List (MemoryOp × Word × Word)) :
    Grown (accesses.foldlM (fun s a => s.checkAccess a.1 a.2.1 a.2.2) s)
      (s.view.expanded (largestEnd accesses)) := by
  induction accesses generalizing s with
  | nil =>
    rw [largestEnd, List.foldr_nil, Frame.expanded_zero]
    exact ⟨s, rfl, rfl⟩
  | cons a rest ih =>
    rw [List.foldlM_cons, largestEnd, List.foldr_cons, ← Frame.expanded_expanded]
    exact (s.checkAccess_grown a.1 a.2.1 a.2.2).bind fun s' _ => ih s'

end Dtvm.Expansion
