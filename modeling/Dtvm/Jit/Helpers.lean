import Dtvm.Jit.Calls

/-!
# Copies, hashes, logs and state as compiled code reaches them

For the opcodes that copy data, hash, log or access state, compiled code narrows the operands and calls a helper of
`evm_imported.cpp`. As in `Dtvm.Jit.Calls`, the helpers are programs over the operations of a frame. The instance
keeps its gas in two places, `Gas` and the message's `gas`; whatever writes one of them writes the other.

`KECCAK256` goes through a cache that lives as long as its thread (`KeccakCache`).
-/

namespace Dtvm.Jit

open Effect Code

/-! ## The cache of hashes -/

def keccakCacheMaxInputLen : Nat := 128

/-- `KeccakCacheEntry`. The buffer keeps what longer inputs have left behind an input. -/
structure KeccakCacheEntry where
  input : Bytes := List.replicate keccakCacheMaxInputLen 0
  inputLen : Nat := 0
  result : Word := 0
  valid : Bool := false

/-- `KeccakCache`, with its `KeccakCacheSlots` slots. -/
structure KeccakCache where
  slots : Fin 16 → KeccakCacheEntry := fun _ => {}
  nextSlot : Fin 16 := 0

namespace KeccakCache

def holds (data : Bytes) (len : Nat) (s : KeccakCacheEntry) : Bool :=
  s.valid && s.inputLen == len && s.input.take len == data.take len

/-- `lookup`: the first slot that holds the input. -/
def lookup (cache : KeccakCache) (data : Bytes) (len : Nat) : Option Word :=
  if len > keccakCacheMaxInputLen then none
  else ((List.finRange 16).find? fun i => holds data len (cache.slots i)).map fun i =>
    (cache.slots i).result

def insert (cache : KeccakCache) (data : Bytes) (len : Nat) (result : Word) : KeccakCache :=
  if len > keccakCacheMaxInputLen then cache
  else
    { slots := fun i =>
        if i = cache.nextSlot then
          { input := data.take len ++ (cache.slots i).input.drop len
            inputLen := len
            result := result
            valid := true }
        else cache.slots i
      nextSlot := cache.nextSlot + 1 }

/-- The cache of a new instance. -/
def fresh : KeccakCache := {}

/-- The end of `evmGetKeccak256`: the hash from the cache, or computed and put there. The cache gets the length
in 32 bits. -/
def hash (keccak : Bytes → Word) (cache : KeccakCache) (data : Bytes) (length : Nat) :
    Word × KeccakCache :=
  let len32 := length % 2 ^ 32
  match cache.lookup data len32 with
  | some cached => (cached, cache)
  | none => (keccak data, cache.insert data len32 (keccak data))

/-- The caches that calls of `evmGetKeccak256` leave, one after the other, in a thread. What they hash has
passed the check of the memory. -/
inductive Reached (keccak : Bytes → Word) : KeccakCache → Prop
  | start : Reached keccak {}
  | call {cache : KeccakCache} (earlier : Reached keccak cache) (data : Bytes)
      (small : data.length ≤ maxRequiredMemorySize) : Reached keccak (cache.hash keccak data data.length).2

end KeccakCache

/-! ## Helpers -/

/-- `calculateWordCopyGas`, and the charge unless it is zero. -/
def chargeWordCopyGas (size : Nat) : Code Unit :=
  let copyGas := if size = 0 then 0 else numWords size * Handler.wordCopyCost
  when (copyGas ≠ 0) (charge copyGas)

def evmSetCallDataCopy (env : Env) (destOffset offset size : Nat) : Code Unit :=
  if size = 0 then pure ()
  else do
    let expanded ← expandMemoryChecked destOffset size
    if expanded = false then pure ()
    else do
      chargeWordCopyGas size
      let inputSize := env.msg.input.length
      let actualOffset := min offset inputSize
      let copySize := if actualOffset < inputSize then min size (inputSize - actualOffset) else 0
      memoryWrite destOffset
        ((env.msg.input.drop actualOffset).take copySize ++ List.replicate (size - copySize) 0)

def evmSetCodeCopy (env : Env) (destOffset offset size : Nat) : Code Unit :=
  if size = 0 then pure ()
  else do
    let expanded ← expandMemoryChecked destOffset size
    if expanded = false then pure ()
    else do
      chargeWordCopyGas size
      let codeSize := env.code.length
      if offset < codeSize then
        let copySize := min size (codeSize - offset)
        memoryWrite destOffset ((env.code.drop offset).take copySize ++ List.replicate (size - copySize) 0)
      else memoryWrite destOffset (List.replicate size 0)

/-- The `MaxBufferSize` of `evmSetExtCodeCopy`. -/
def maxBufferSize : Nat := 2 ^ 32 - 1

def evmSetExtCodeCopy (env : Env) (address : Address) (destOffset offset size : Nat) : Code Unit := do
  let expanded ← expandMemoryChecked destOffset size
  if expanded = false then pure ()
  else do
    chargeWordCopyGas size
    Handler.chargeAccountAccess env address
    if size = 0 then pure ()
    else do
      let offset := if maxBufferSize < offset then maxBufferSize else offset
      let copied ← host (.copyCode address offset size)
      memoryWrite destOffset (Handler.paddedSlice copied 0 size)

def evmSetReturnDataCopy (destOffset offset size : Nat) : Code Unit := do
  let data ← returnData
  if offset > data.length ∨ size > data.length ∨ (offset + size) % 2 ^ 64 > data.length then
    fail .invalidMemoryAccess
  else if size = 0 then pure ()
  else do
    let expanded ← expandMemoryChecked destOffset size
    if expanded = false then pure ()
    else do
      chargeWordCopyGas size
      let copySize := min size (data.length - offset)
      memoryWrite destOffset ((data.drop offset).take copySize)

/-- `evmGetKeccak256`. The null result of a check that fails is never used: the check ends the frame. -/
def evmGetKeccak256 (env : Env) (cache : KeccakCache) (offset length : Nat) : Code (Word × KeccakCache) :=
  if length > 0 then do
    let expanded ← expandMemoryChecked offset length
    if expanded = false then pure (0, cache)
    else do
      charge (numWords length * 6)
      let input ← memoryRead offset length
      pure (cache.hash env.keccak input length)
  else pure (cache.hash env.keccak [] length)

def evmEmitLogGeneric (env : Env) (offset size : Nat) (topics : List Word) : Code Unit :=
  if env.msg.isStaticMode then fail .staticModeViolation
  else if size > 0 then do
    let expanded ← expandMemoryChecked offset size
    if expanded = false then pure ()
    else do
      when (8 * size ≠ 0) (charge (8 * size))
      let data ← memoryRead offset size
      host (.emitLog env.msg.recipient data topics)
  else host (.emitLog env.msg.recipient [] topics)

def evmGetSLoad (env : Env) (index : Word) : Code Word := do
  Handler.chargeSlotAccess env index
  host (.getStorage env.msg.recipient index)

def evmSetSStore (env : Env) (index value : Word) : Code Unit :=
  if env.msg.isStaticMode then fail .staticModeViolation
  else do
    Handler.requireSstoreGas env
    let gasCostCold ← Handler.sstoreColdCost env index
    let status ← host (.setStorage env.msg.recipient index value)
    charge (gasCostCold + (Handler.sstoreCosts env.rev status).1)
    addRefund (Handler.sstoreCosts env.rev status).2

def evmGetTLoad (env : Env) (index : Word) : Code Word :=
  host (.getTransientStorage env.msg.recipient index)

def evmSetTStore (env : Env) (index value : Word) : Code Unit :=
  if env.msg.isStaticMode then fail .staticModeViolation
  else host (.setTransientStorage env.msg.recipient index value)

def evmHandleSelfDestruct (env : Env) (beneficiary : Address) : Code Unit :=
  if env.msg.isStaticMode then fail .staticModeViolation
  else do
    Handler.chargeBeneficiaryAccess env beneficiary
    let mayCreate ← Handler.mayCreateBeneficiary env
    when mayCreate do
      let found ← host (.accountExists beneficiary)
      when (found = false) (charge Handler.accountCreationCost)
    let first ← host (.selfdestruct env.msg.recipient beneficiary)
    when (first ∧ env.rev < .london) (addRefund Handler.extraRefundBeforeLondon)
    setReturnData []
    finish .success

/-! ## Opcodes -/

inductive HelperOp where
  | callDataCopy | codeCopy | extCodeCopy | returnDataCopy | keccak256
  /-- `LOG0` to `LOG4`, by the number of topics. -/
  | log (numTopics : Fin 5)
  | sload | sstore | tload | tstore | selfDestruct
deriving DecidableEq, Repr

def HelperOp.interpreted (env : Env) : HelperOp → Code Unit
  | .callDataCopy => Handler.callDataCopy env
  | .codeCopy => Handler.codeCopy env
  | .extCodeCopy => Handler.extCodeCopy env
  | .returnDataCopy => Handler.returnDataCopy
  | .keccak256 => Handler.keccak256 env
  | .log numTopics => Handler.log env numTopics
  | .sload => Handler.sload env
  | .sstore => Handler.sstore env
  | .tload => Handler.tload env
  | .tstore => Handler.tstore env
  | .selfDestruct => Handler.selfDestruct env

def handleCallDataCopy (env : Env) : Code Unit := do
  let x ← operands 3
  evmSetCallDataCopy env (saturate (x 0)) (saturate (x 1)) (saturate (x 2))

def handleCodeCopy (env : Env) : Code Unit := do
  let x ← operands 3
  let (destOffset, size) ← normalizeOffsetWithSize (x 0) (x 2)
  evmSetCodeCopy env destOffset (saturate (x 1)) size

def handleExtCodeCopy (env : Env) : Code Unit := do
  let x ← operands 4
  evmSetExtCodeCopy env (x 0).toAddress (saturate (x 1)) (saturate (x 2)) (saturate (x 3))

def handleReturnDataCopy : Code Unit := do
  let x ← operands 3
  evmSetReturnDataCopy (saturate (x 0)) (saturate (x 1)) (saturate (x 2))

/-- `handleKeccak256`, and the push of its result. -/
def handleKeccak256 (env : Env) (cache : KeccakCache) : Code KeccakCache := do
  let x ← operands 2
  let (offset, length) ← normalizeOffsetWithSize (x 0) (x 1)
  let (result, cache) ← evmGetKeccak256 env cache offset length
  push result
  pure cache

def handleLogWithTopics (env : Env) (numTopics : Nat) : Code Unit := do
  let x ← operands (numTopics + 2)
  let (offset, size) ← normalizeOffsetWithSize (x 0) (x 1)
  evmEmitLogGeneric env offset size
    (List.ofFn fun k : Fin numTopics => x (k.natAdd 2 |>.cast (Nat.add_comm _ _)))

/-- The code of an opcode, with the cache that it takes and leaves. -/
def HelperOp.compiled (env : Env) (cache : KeccakCache) : HelperOp → Code KeccakCache
  | .callDataCopy => do handleCallDataCopy env; pure cache
  | .codeCopy => do handleCodeCopy env; pure cache
  | .extCodeCopy => do handleExtCodeCopy env; pure cache
  | .returnDataCopy => do handleReturnDataCopy; pure cache
  | .keccak256 => handleKeccak256 env cache
  | .log numTopics => do handleLogWithTopics env numTopics; pure cache
  | .sload => do
    let x ← operands 1
    let value ← evmGetSLoad env (x 0)
    push value
    pure cache
  | .sstore => do
    let x ← operands 2
    evmSetSStore env (x 0) (x 1)
    pure cache
  | .tload => do
    let x ← operands 1
    let value ← evmGetTLoad env (x 0)
    push value
    pure cache
  | .tstore => do
    let x ← operands 2
    evmSetTStore env (x 0) (x 1)
    pure cache
  | .selfDestruct => do
    let x ← operands 1
    evmHandleSelfDestruct env (x 0).toAddress
    pure cache

end Dtvm.Jit
