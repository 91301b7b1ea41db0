import Dtvm.Evm.Calls

/-!
# Calls and creations as compiled code makes them

Compiled code narrows the operands to 64 bits (`normalizeOperandU64`, `normalizeOffsetWithSize`) and calls
`evmHandleCallInternal` or `evmHandleCreateInternal`, which charge an `EVMInstance` and return the word to push.
Both are given over the same operations as the interpreter's handlers: `Instance->getGas()` is the gas of the
machine, `MemoryBase` and `MemorySize` are its memory, the instance's return data its return data.

An instance without enough gas raises `GasLimitExceeded`, which ends the frame: it is the stop of `charge`.
`chargeGas(getGas() + 1)`, with which the source raises it at will, is `exhaust`.
-/

namespace Dtvm.Jit

open Effect Code

/-! ## Operands -/

/-- `normalizeOperandU64` with the largest 64-bit value to fall back on. -/
def saturate (v : Word) : Nat := if v.toNat < 2 ^ 64 then v.low64 else 2 ^ 64 - 1

/-- `normalizeOffsetWithSize`: the offset of an empty region is not looked at. -/
def normalizeOffsetWithSize (offset size : Word) : Code (Nat × Nat) :=
  if 2 ^ 64 ≤ size.toNat then fail .outOfGas
  else if size.low64 ≠ 0 ∧ 2 ^ 64 ≤ offset.toNat then fail .outOfGas
  else pure (if size.low64 = 0 then 0 else offset.low64, size.low64)

/-! ## The instance -/

/-- `chargeGas(getGas() + 1)`. -/
def exhaust : Code Unit := do
  let left ← gas
  charge (left + 1)

def calcRequiredMemorySize (offset size : Nat) : Option Nat :=
  if offset > 2 ^ 64 - 1 - size then none else some (offset + size)

def expandMemory (requiredSize : Nat) : Code Unit := do
  let newSize := (requiredSize + 31) / 32 * 32
  let current ← memorySize
  charge (calculateMemoryExpansionCost current newSize)
  when (newSize > current) (memoryResize newSize)

/-- The end of both forms of `EVMInstance::expandMemoryChecked`. -/
def expandTo : Option Nat → Code Bool
  | none => do
    exhaust
    pure false
  | some requiredSize =>
    if requiredSize > maxRequiredMemorySize then do
      exhaust
      pure false
    else do
      expandMemory requiredSize
      pure true

/-- `EVMInstance::expandMemoryChecked` for one region. -/
def expandMemoryChecked (offset size : Nat) : Code Bool :=
  if size = 0 then pure true else expandTo (calcRequiredMemorySize offset size)

/-- `EVMInstance::expandMemoryChecked` for two regions that are not empty. -/
def expandMemoryCheckedBoth (offsetA sizeA offsetB sizeB : Nat) : Code Bool :=
  expandTo (do
    let requiredSizeA ← calcRequiredMemorySize offsetA sizeA
    let requiredSizeB ← calcRequiredMemorySize offsetB sizeB
    pure (max requiredSizeA requiredSizeB))

def lightFailure : Code Word := do
  setReturnData []
  pure 0

/-! ## Creation -/

/-- The message of `evmHandleCreateInternal`. -/
def createMessage (env : Env) (op : CreateOp) (gas : Nat) (value salt : Word) (input : Bytes) :
    Message where
  kind := op.kind
  flags := env.msg.flags
  depth := env.msg.depth + 1
  gas := gas
  recipient := 0
  sender := env.msg.recipient
  input := input
  value := value
  salt := if op = .create2 then salt else 0
  codeAddress := 0

/-- `evmHandleCreateInternal` from the call to the host on. -/
def sendCreate (m : Message) : Code Word := do
  let r ← host (.call m)
  charge (m.gas - r.gasLeft.toNat)
  addRefund r.gasRefund
  setReturnData r.output
  pure (if r.status = .success then r.createAddress.toWord else 0)

/-- The charges of `evmHandleCreateInternal` for its init code. -/
def chargeInitCode (env : Env) (op : CreateOp) (size : Nat) : Code Unit := do
  when (.shanghai ≤ env.rev ∧ size > Handler.maxSizeOfInitcode) exhaust
  let wordCost := Handler.initCodeWordCost env op
  when (wordCost ≠ 0 ∧ size ≠ 0) (charge (wordCost * ((size + 31) / 32)))

def evmHandleCreateInternal (env : Env) (op : CreateOp) (value : Word) (offset size : Nat)
    (salt : Word) : Code Word :=
  if env.msg.isStaticMode then fail .staticModeViolation
  else do
    let expanded ← expandMemoryChecked offset size
    if expanded = false then lightFailure
    else do
      chargeInitCode env op size
      if env.msg.depth ≥ maxStack then lightFailure
      else do
        let pays ← Handler.canPay env value
        if pays then do
          let left ← gas
          let input ← memoryRead offset size
          sendCreate (createMessage env op (Handler.allButOne64th env left) value salt input)
        else lightFailure

/-- `handleCreate` and `handleCreate2` on the operands, and the push of their result. -/
def createWith (env : Env) (op : CreateOp) (value codeOffset codeSize salt : Word) : Code Unit := do
  let (offset, size) ← normalizeOffsetWithSize codeOffset codeSize
  let result ← evmHandleCreateInternal env op value offset size salt
  push result

/-- `CREATE` and `CREATE2` in compiled code. -/
def create (env : Env) : CreateOp → Code Unit
  | .create => do
    let x ← operands 3
    createWith env .create (x 0) (x 1) (x 2) 0
  | .create2 => do
    let x ← operands 4
    createWith env .create2 (x 0) (x 1) (x 2) (x 3)

/-! ## Calls -/

/-- The `CallKind` a helper passes on. -/
def hasValueArgs (kind : CallKind) : Bool := kind = .call ∨ kind = .callcode

/-- The memory of `evmHandleCallInternal`; a region that is empty is not looked at. -/
def expandRegions (argsOffset argsSize retOffset retSize : Nat) : Code Bool :=
  if argsSize > 0 ∧ retSize > 0 then
    expandMemoryCheckedBoth argsOffset argsSize retOffset retSize
  else if argsSize > 0 then expandMemoryChecked argsOffset argsSize
  else if retSize > 0 then expandMemoryChecked retOffset retSize
  else pure true

/-- The charge of `evmHandleCallInternal` for the value operand. -/
def chargeCallValue (env : Env) (kind : CallKind) (target : Address) (value : Word) : Code Unit :=
  if hasValueArgs kind then do
    let base := if value ≠ 0 then Handler.callValueCost else 0
    if kind = .call ∧ (value ≠ 0 ∨ env.rev < .spuriousDragon) then do
      let found ← host (.accountExists target)
      charge (base + if found then 0 else Handler.accountCreationCost)
    else charge base
  else pure ()

def capCallGas (env : Env) (callGas : Nat) : Code Nat := do
  let gasLeft ← gas
  if .tangerineWhistle ≤ env.rev then pure (min callGas (gasLeft - gasLeft / 64))
  else if callGas > gasLeft then fail .outOfGas
  else pure callGas

/-- The stipend and the balance check; `none` is the light failure. -/
def addStipend (env : Env) (kind : CallKind) (value : Word) (callGas : Nat) : Code (Option Nat) :=
  if hasValueArgs kind ∧ value ≠ 0 then do
    credit Handler.callGasStipend
    let b ← host (.getBalance env.msg.recipient)
    pure (if value.toNat ≤ b.toNat then some (callGas + Handler.callGasStipend) else none)
  else pure (some callGas)

/-- The message of `evmHandleCallInternal`. -/
def callMessage (env : Env) (kind : CallKind) (forceStatic : Bool) (target : Address) (gas : Nat)
    (value : Word) (input : Bytes) : Message where
  kind := kind
  flags := if kind = .call ∧ forceStatic then evmcStatic else env.msg.flags
  depth := env.msg.depth + 1
  gas := gas
  recipient := if kind = .call ∨ forceStatic then target else env.msg.recipient
  sender := if kind = .delegatecall then env.msg.sender else env.msg.recipient
  input := input
  value := if kind = .delegatecall then env.msg.value else value
  salt := 0
  codeAddress := target

/-- `evmHandleCallInternal` from the call to the host on. -/
def sendCall (m : Message) (retOffset retSize : Nat) : Code Word := do
  let r ← host (.call m)
  charge (m.gas - r.gasLeft.toNat)
  addRefund r.gasRefund
  when (retSize > 0 ∧ r.output.length > 0) (memoryWrite retOffset (r.output.take retSize))
  setReturnData r.output
  pure (if r.status = .success then 1 else 0)

def evmHandleCallInternal (env : Env) (kind : CallKind) (forceStatic : Bool) (gas : Nat)
    (target : Address) (value : Word) (argsOffset argsSize retOffset retSize : Nat) : Code Word := do
  Handler.chargeAccountAccess env target
  if kind = .call ∧ value ≠ 0 ∧ env.msg.isStaticMode then fail .staticModeViolation
  else do
    let expanded ← expandRegions argsOffset argsSize retOffset retSize
    if expanded = false then lightFailure
    else do
      chargeCallValue env kind target value
      let capped ← capCallGas env gas
      let sent ← addStipend env kind value capped
      match sent with
      | none => lightFailure
      | some callGas =>
        if env.msg.depth ≥ maxStack then lightFailure
        else do
          let input ← memoryRead argsOffset argsSize
          sendCall (callMessage env kind forceStatic target callGas value input) retOffset retSize

/-- `handleCall` and its siblings on the operands, and the push of their result. -/
def callWith (env : Env) (op : CallOp) (requested : Word) (dest : Address)
    (value inputOffset inputSize outputOffset outputSize : Word) : Code Unit := do
  let (argsOffset, argsSize) ← normalizeOffsetWithSize inputOffset inputSize
  let (retOffset, retSize) ← normalizeOffsetWithSize outputOffset outputSize
  let result ← evmHandleCallInternal env op.kind (op = .staticcall) (saturate requested) dest value
    argsOffset argsSize retOffset retSize
  push result

def call (env : Env) (op : CallOp) : Code Unit :=
  if op.hasValueArgs then do
    let x ← operands 7
    callWith env op (x 0) (x 1).toAddress (x 2) (x 3) (x 4) (x 5) (x 6)
  else do
    let x ← operands 6
    callWith env op (x 0) (x 1).toAddress 0 (x 2) (x 3) (x 4) (x 5)

end Dtvm.Jit
