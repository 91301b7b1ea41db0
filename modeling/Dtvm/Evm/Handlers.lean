import Dtvm.Evm.Machine

/-!
# Opcode handlers

The handlers of `opcode_handlers.cpp` and the inlined opcodes of `interpreter.cpp`. A handler is its
`doExecute()`: the base gas is collected by the loop that calls it (`Dtvm.Evm.Interpreter`). The source's helpers
answer a boolean that every caller turns into `EVMC_OUT_OF_GAS`; here they stop with that status themselves.
Calls, creations, logs and self-destruction are in `Dtvm.Evm.Calls`.

The 256-bit arithmetic of the intx library is that of `BitVec 256`; its conversion to 64 bits keeps the low limb.
-/

namespace Dtvm

open Effect

/-- What a frame cannot change: the revision of its instance, its message, its code, the hash
function and the refund counter at entry (`GasRefundSnapshot`). -/
structure Env where
  rev : Revision
  msg : Message
  code : Bytes
  keccak : Bytes → Word
  refundSnapshot : Int

/-! ## Gas and memory -/

def maxRequiredMemorySize : Nat := 16 * 1024 * 1024

theorem maxRequired_lt : maxRequiredMemorySize < 2 ^ 32 := by decide

/-- `uint256ToUint64`: saturating. -/
def uint256ToUint64 (v : Word) : Nat := if v.toNat < 2 ^ 64 then v.toNat else 2 ^ 64 - 1

/-- `static_cast<uint64_t>`: the low limb. -/
def Word.low64 (v : Word) : Nat := v.toNat % 2 ^ 64

theorem low64_of_lt {v : Word} (small : v.toNat < 2 ^ 64) : v.low64 = v.toNat := Nat.mod_eq_of_lt small

def numWords (size : Nat) : Nat := (size + 31) / 32

/-- The `MemoryCost` of `calculateMemoryExpansionCost`. -/
def memoryCost (words : Nat) : Nat := words * words / 512 + 3 * words

def calculateMemoryExpansionCost (currentSize newSize : Nat) : Nat :=
  if newSize ≤ currentSize then 0
  else memoryCost ((newSize + 31) / 32) - memoryCost ((currentSize + 31) / 32)

namespace Handler

open Code

def expandMemoryAndChargeGas (requiredSize : Nat) : Code Unit :=
  if requiredSize > maxRequiredMemorySize then fail .outOfGas
  else do
    let currentSize ← memorySize
    let required := (requiredSize + 31) / 32 * 32
    charge (calculateMemoryExpansionCost currentSize required)
    when (required > currentSize) (memoryResize required)

/-- `checkMemoryExpandAndChargeGas` for a 64-bit size. -/
def checkMemoryExpand64 (offset : Word) (size : Nat) : Code Unit :=
  if offset.toNat > 2 ^ 64 - 1 then fail .outOfGas
  else if offset.toNat > 2 ^ 64 - 1 - size then fail .outOfGas
  else expandMemoryAndChargeGas (offset.toNat + size)

/-- `checkMemoryExpandAndChargeGas` for a 256-bit size. -/
def checkMemoryExpandAndChargeGas (offset size : Word) : Code Unit :=
  if size = 0 then pure ()
  else if size.toNat > 2 ^ 64 - 1 then fail .outOfGas
  else checkMemoryExpand64 offset size.low64

def wordCopyCost : Nat := 3

def copyCodeAndChargeGas (size : Nat) : Code Unit := charge (numWords size * wordCopyCost)

def coldAccountAccessCost : Nat := 2600

def warmAccountAccessCost : Nat := 100

def additionalColdAccountAccessCost : Nat := coldAccountAccessCost - warmAccountAccessCost

def coldSloadCost : Nat := 2100

def warmStorageReadCost : Nat := 100

def additionalColdSloadCost : Nat := coldSloadCost - warmStorageReadCost

/-- The EIP-2929 charge for touching an account, from Berlin on. -/
def chargeAccountAccess (env : Env) (a : Address) : Code Unit :=
  if .berlin ≤ env.rev then do
    let access ← host (.accessAccount a)
    when (access = .cold) (charge additionalColdAccountAccessCost)
  else pure ()

/-- The offset of a region after its memory check: zero when the region is empty. -/
def regionOffset (offset : Word) (size : Nat) : Nat := if size = 0 then 0 else offset.low64

/-- The part of `data` from `offset` on, `size` bytes long, zero-filled past its end. -/
def paddedSlice (data : Bytes) (offset size : Nat) : Bytes :=
  let part := (data.drop offset).take size
  part ++ List.replicate (size - part.length) 0

/-! ## Arithmetic, comparison and bits -/

def unaryOp (f : Word → Word) : Code Unit := do
  let x ← operands 1
  push (f (x 0))

/-- `BinaryOpHandler`; the first argument is the top of the stack. -/
def binaryOp (f : Word → Word → Word) : Code Unit := do
  let x ← operands 2
  push (f (x 0) (x 1))

def ternaryOp (f : Word → Word → Word → Word) : Code Unit := do
  let x ← operands 3
  push (f (x 0) (x 1) (x 2))

def ofBool (b : Bool) : Word := if b then 1 else 0

def divOp (a b : Word) : Word := if b = 0 then 0 else a / b
def modOp (a b : Word) : Word := if b = 0 then 0 else a % b
def sdivOp (a b : Word) : Word := if b = 0 then 0 else a.sdiv b
def smodOp (a b : Word) : Word := if b = 0 then 0 else a.srem b
def addmodOp (a b c : Word) : Word :=
  if c = 0 then 0 else BitVec.ofNat 256 ((a.toNat + b.toNat) % c.toNat)
def mulmodOp (a b c : Word) : Word :=
  if c = 0 then 0 else BitVec.ofNat 256 (a.toNat * b.toNat % c.toNat)
def shlOp (a b : Word) : Word := if a.toNat < 256 then b <<< a.toNat else 0
def shrOp (a b : Word) : Word := if a.toNat < 256 then b >>> a.toNat else 0

/-- The word operation of `SignExtendHandler`. -/
def signExtendOp (i v : Word) : Word :=
  if i.toNat < 31 then
    let signBitPosition := 8 * i.toNat + 7
    let signBit : Word := 1 <<< signBitPosition
    let mask := signBit - 1
    if v &&& signBit ≠ 0 then v ||| ~~~mask else v &&& mask
  else v

/-- The word operation of `ByteHandler`. -/
def byteOp (i v : Word) : Word :=
  if i.toNat < 32 then (v >>> (8 * (31 - i.toNat))) &&& 0xFF else 0

/-- The word operation of `SarHandler`. -/
def sarOp (shift value : Word) : Word :=
  let isNegative := (value >>> 255) &&& 1
  if shift.toNat < 256 then
    let res := value >>> shift.toNat
    if isNegative ≠ 0 ∧ shift.toNat > 0 then
      res ||| ~~~(((1 : Word) <<< (256 - shift.toNat)) - 1)
    else res
  else if isNegative ≠ 0 then ~~~0 else 0

/-- The loop of `intx::exp`; 256 rounds empty every exponent. -/
def expLoop : Nat → Word → Word → Word → Word
  | 0, result, _, _ => result
  | n + 1, result, base, exponent =>
    if exponent = 0 then result
    else expLoop n (if exponent.getLsbD 0 then result * base else result) (base * base)
      (exponent >>> 1)

def expOp (base exponent : Word) : Word := expLoop 256 1 base exponent

def countSignificantBytes (v : Word) : Nat := (256 - v.clz.toNat + 7) / 8

/-- `EXP_BYTE_GAS` and its value before Spurious Dragon. -/
def expByteGas (rev : Revision) : Nat := if rev < .spuriousDragon then 10 else 50

def exp (env : Env) : Code Unit := do
  let x ← operands 2
  charge (countSignificantBytes (x 1) * expByteGas env.rev)
  push (expOp (x 0) (x 1))

def keccak256 (env : Env) : Code Unit := do
  let x ← operands 2
  checkMemoryExpandAndChargeGas (x 0) (x 1)
  let dataLength := (x 1).low64
  charge (numWords dataLength * 6)
  let input ← memoryRead (regionOffset (x 0) dataLength) dataLength
  push (env.keccak input)

/-! ## Environment -/

def balance (env : Env) : Code Unit := do
  let x ← operands 1
  let addr := (x 0).toAddress
  chargeAccountAccess env addr
  let b ← host (.getBalance addr)
  push b

def callDataLoad (env : Env) : Code Unit := do
  let x ← operands 1
  if (x 0).toNat > env.msg.input.length then push 0
  else push (Word.load (paddedSlice env.msg.input (uint256ToUint64 (x 0)) 32))

def callDataCopy (env : Env) : Code Unit := do
  let x ← operands 3
  checkMemoryExpandAndChargeGas (x 0) (x 2)
  let size := uint256ToUint64 (x 2)
  copyCodeAndChargeGas size
  memoryWrite (uint256ToUint64 (x 0)) (paddedSlice env.msg.input (uint256ToUint64 (x 1)) size)

def codeCopy (env : Env) : Code Unit := do
  let x ← operands 3
  checkMemoryExpandAndChargeGas (x 0) (x 2)
  let size := uint256ToUint64 (x 2)
  copyCodeAndChargeGas size
  memoryWrite (uint256ToUint64 (x 0)) (paddedSlice env.code (uint256ToUint64 (x 1)) size)

def extCodeSize (env : Env) : Code Unit := do
  let x ← operands 1
  let addr := (x 0).toAddress
  chargeAccountAccess env addr
  let n ← host (.getCodeSize addr)
  pushChecked (BitVec.ofNat 256 n)

def extCodeHash (env : Env) : Code Unit := do
  let x ← operands 1
  let addr := (x 0).toAddress
  chargeAccountAccess env addr
  room
  let h ← host (.getCodeHash addr)
  push h

def extCodeCopy (env : Env) : Code Unit := do
  let x ← operands 4
  let addr := (x 0).toAddress
  checkMemoryExpandAndChargeGas (x 1) (x 3)
  let size := uint256ToUint64 (x 3)
  copyCodeAndChargeGas size
  chargeAccountAccess env addr
  if size > 0 then do
    let copied ← host (.copyCode addr (uint256ToUint64 (x 2)) size)
    memoryWrite (uint256ToUint64 (x 1)) (paddedSlice copied 0 size)
  else pure ()

def returnDataSize : Code Unit := do
  let data ← returnData
  pushChecked (BitVec.ofNat 256 data.length)

def returnDataCopy : Code Unit := do
  let x ← operands 3
  let data ← returnData
  if (x 1).toNat > data.length ∨ (x 2).toNat > data.length ∨ (x 1 + x 2).toNat > data.length then
    fail .invalidMemoryAccess
  else do
    checkMemoryExpandAndChargeGas (x 0) (x 2)
    let size := uint256ToUint64 (x 2)
    copyCodeAndChargeGas size
    memoryWrite (uint256ToUint64 (x 0)) ((data.drop (uint256ToUint64 (x 1))).take size)

/-- `EVMFrame::getTxContext`: asked of the host until it has a block timestamp. -/
def getTxContext : Code TxContext := do
  let t ← mtx
  if t.timestamp = 0 then do
    let t' ← host .getTxContext
    setMtx t'
    pure t'
  else pure t

/-- The handlers that push a word of the transaction context (`OriginHandler`, `GasPriceHandler`,
`CoinBaseHandler`, `TimeStampHandler`, `NumberHandler`, `PrevRanDaoHandler`, `GasLimitHandler`,
`ChainIdHandler`, `BaseFeeHandler`, `BlobBaseFeeHandler`). -/
def pushTx (field : TxContext → Word) : Code Unit := do
  room
  let t ← getTxContext
  push (field t)

def selfBalance (env : Env) : Code Unit := do
  room
  let b ← host (.getBalance env.msg.recipient)
  push b

def blockHash : Code Unit := do
  let x ← operands 1
  let t ← getTxContext
  let lowerBound := max (t.number - 256).toInt 0
  let blockNumber := ((x 0).setWidth 64).toInt
  if (x 0).toNat < t.number.toNat ∧ blockNumber ≥ lowerBound then do
    let h ← host (.getBlockHash blockNumber)
    push h
  else push 0

def blobHash : Code Unit := do
  let x ← operands 1
  let t ← getTxContext
  if (x 0).toNat ≥ t.blobHashes.length then push 0
  else do
    let t ← getTxContext
    pushChecked (t.blobHashes.getD (uint256ToUint64 (x 0)) 0)

/-! ## Storage and memory -/

def chargeSlotAccess (env : Env) (key : Word) : Code Unit :=
  if .berlin ≤ env.rev then do
    let access ← host (.accessStorage env.msg.recipient key)
    when (access = .cold) (charge additionalColdSloadCost)
  else pure ()

def sload (env : Env) : Code Unit := do
  let x ← operands 1
  chargeSlotAccess env (x 0)
  let v ← host (.getStorage env.msg.recipient (x 0))
  push v

structure StorageCostSpec where
  netCost : Bool
  warmAccess : Nat
  set : Nat
  reset : Nat
  clear : Nat

/-- `STORAGE_COST_SPEC_TABLE`. -/
def storageCostSpec : Revision → StorageCostSpec
  | .frontier | .homestead | .tangerineWhistle | .spuriousDragon | .byzantium | .petersburg =>
    ⟨false, 200, 20000, 5000, 15000⟩
  | .constantinople => ⟨true, 200, 20000, 5000, 15000⟩
  | .istanbul => ⟨true, 800, 20000, 5000, 15000⟩
  | .berlin => ⟨true, warmStorageReadCost, 20000, 5000 - coldSloadCost, 15000⟩
  | .london | .paris | .shanghai | .cancun | .prague | .osaka | .experimental =>
    ⟨true, warmStorageReadCost, 20000, 5000 - coldSloadCost, 4800⟩

/-- `SSTORE_COSTS`: the gas cost and the refund. -/
def sstoreCosts (rev : Revision) (status : StorageStatus) : Nat × Int :=
  let c := storageCostSpec rev
  if c.netCost then
    match status with
    | .assigned => (c.warmAccess, 0)
    | .added => (c.set, 0)
    | .deleted => (c.reset, c.clear)
    | .modified => (c.reset, 0)
    | .deletedAdded => (c.warmAccess, -c.clear)
    | .modifiedDeleted => (c.warmAccess, c.clear)
    | .deletedRestored => (c.warmAccess, c.reset - c.warmAccess - c.clear)
    | .addedDeleted => (c.warmAccess, c.set - c.warmAccess)
    | .modifiedRestored => (c.warmAccess, c.reset - c.warmAccess)
  else
    match status with
    | .added | .deletedAdded | .deletedRestored => (c.set, 0)
    | .deleted | .modifiedDeleted | .addedDeleted => (c.reset, c.clear)
    | .modified | .assigned | .modifiedRestored => (c.reset, 0)

def sstoreRequiredIstanbul : Nat := 2300

/-- The EIP-2200 check that a storage write leaves more than the stipend. -/
def requireSstoreGas (env : Env) : Code Unit :=
  if .istanbul ≤ env.rev then do
    let g ← gas
    when (g ≤ sstoreRequiredIstanbul) (fail .outOfGas)
  else pure ()

def sstoreColdCost (env : Env) (key : Word) : Code Nat :=
  if .berlin ≤ env.rev then do
    let access ← host (.accessStorage env.msg.recipient key)
    pure (if access = .cold then coldSloadCost else 0)
  else pure 0

def sstore (env : Env) : Code Unit :=
  if env.msg.isStaticMode then fail .staticModeViolation
  else do
    requireSstoreGas env
    let x ← operands 2
    let coldCost ← sstoreColdCost env (x 0)
    let status ← host (.setStorage env.msg.recipient (x 0) (x 1))
    charge (coldCost + (sstoreCosts env.rev status).1)
    addRefund (sstoreCosts env.rev status).2

def tload (env : Env) : Code Unit := do
  let x ← operands 1
  let v ← host (.getTransientStorage env.msg.recipient (x 0))
  push v

def tstore (env : Env) : Code Unit :=
  if env.msg.isStaticMode then fail .staticModeViolation
  else do
    let x ← operands 2
    host (.setTransientStorage env.msg.recipient (x 0) (x 1))

def mload : Code Unit := do
  let x ← operands 1
  checkMemoryExpand64 (x 0) 32
  let bytes ← memoryRead (x 0).low64 32
  push (Word.load bytes)

def mstore : Code Unit := do
  let x ← operands 2
  checkMemoryExpand64 (x 0) 32
  memoryWrite (x 0).low64 (x 1).store

def mstore8 : Code Unit := do
  let x ← operands 2
  checkMemoryExpand64 (x 0) 1
  memoryWrite (x 0).low64 [UInt8.ofNat (x 1 &&& 0xFF).toNat]

def mcopy : Code Unit := do
  let x ← operands 3
  if x 2 = 0 then pure ()
  else do
    checkMemoryExpandAndChargeGas (if (x 0).toNat < (x 1).toNat then x 1 else x 0) (x 2)
    let size := uint256ToUint64 (x 2)
    copyCodeAndChargeGas size
    let bytes ← memoryRead (x 1).low64 size
    memoryWrite (x 0).low64 bytes

def msize : Code Unit := do
  let n ← memorySize
  pushChecked (BitVec.ofNat 256 n)

def pcOp : Code Unit := do
  let n ← pc
  pushChecked (BitVec.ofNat 256 n)

def gasOp : Code Unit := do
  let g ← gas
  pushChecked (BitVec.ofNat 256 g)

-- What a handler performs is seen through its name.
attribute [reducible] unaryOp binaryOp ternaryOp exp keccak256 balance callDataLoad callDataCopy codeCopy extCodeSize
  extCodeHash extCodeCopy returnDataSize returnDataCopy pushTx selfBalance blockHash blobHash sload tload mload
  mstore mstore8 mcopy msize pcOp gasOp sstoreColdCost getTxContext requireSstoreGas copyCodeAndChargeGas
  chargeSlotAccess

end Handler

end Dtvm
