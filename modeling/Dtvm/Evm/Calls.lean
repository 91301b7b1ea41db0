import Dtvm.Evm.Handlers

/-!
# Handlers that end the frame or act on other accounts

`CreateHandler`, `CallHandler`, `LogHandler`, `SelfDestructHandler`, `ReturnHandler` and
`RevertHandler`. The four call opcodes share one body, as do the two creations; what differs by
opcode is read off the opcode where the source reads it.

A call that cannot be made for want of balance or depth is a light failure: the handler returns
with the zero it has already pushed.
-/

namespace Dtvm

open Effect

inductive CreateOp where
  | create | create2
deriving DecidableEq, Repr

inductive CallOp where
  | call | callcode | delegatecall | staticcall
deriving DecidableEq, Repr

namespace CreateOp

def kind : CreateOp → CallKind
  | .create => .create
  | .create2 => .create2

end CreateOp

namespace CallOp

/-- `HasValueArgs`: the opcode takes a value operand. -/
def hasValueArgs : CallOp → Bool
  | .call | .callcode => true
  | .delegatecall | .staticcall => false

/-- `CallKind`: a static call is a call with the static flag. -/
def kind : CallOp → CallKind
  | .call => .call
  | .callcode => .callcode
  | .delegatecall => .delegatecall
  | .staticcall => .call

end CallOp

namespace Handler

open Code

/-! ## Creation -/

def maxSizeOfInitcode : Nat := 0xC000

def initCodeWordCost (env : Env) (op : CreateOp) : Nat :=
  (if op = .create2 then 6 else 0) + (if .shanghai ≤ env.rev then 2 else 0)

def allButOne64th (env : Env) (g : Nat) : Nat :=
  if .tangerineWhistle ≤ env.rev then g - g / 64 else g

theorem allButOne64th_le (env : Env) (g : Nat) : allButOne64th env g ≤ g := by
  unfold allButOne64th
  split
  · exact Nat.sub_le _ _
  · exact Nat.le_refl _

def canPay (env : Env) (value : Word) : Code Bool :=
  if value ≠ 0 then do
    let b ← host (.getBalance env.msg.recipient)
    pure (decide (value.toNat ≤ b.toNat))
  else pure true

def createMessage (env : Env) (op : CreateOp) (gas : Nat) (value salt : Word) (input : Bytes) :
    Message where
  kind := op.kind
  flags := 0
  depth := env.msg.depth + 1
  gas := gas
  recipient := 0
  sender := env.msg.recipient
  input := input
  value := value
  salt := salt
  codeAddress := 0

/-- `CreateHandler` from the call to the host on. The charge for the gas the child used is never
refused: the child was given no more than the frame holds. -/
def sendCreate (env : Env) (op : CreateOp) (value salt : Word) (input : Bytes) : Code Unit := do
  let g ← gas
  let callGas := allButOne64th env g
  let r ← host (.call (createMessage env op callGas value salt input))
  charge (callGas - r.gasLeft.toNat)
  addRefund r.gasRefund
  if r.status = .success then do
    setReturnData []
    let _ ← pop 1
    push r.createAddress.toWord
  else setReturnData r.output

/-- What a creation pays for its init code: memory, and words of code under EIP-3860's limit. -/
def chargeInitCode (env : Env) (op : CreateOp) (codeOffset codeSize : Word) : Code Unit := do
  checkMemoryExpandAndChargeGas codeOffset codeSize
  if .shanghai ≤ env.rev ∧ codeSize.toNat > maxSizeOfInitcode then fail .outOfGas
  else charge (initCodeWordCost env op * uint256ToUint64 ((codeSize + 31) / 32))

/-- `CreateHandler` after its operands are popped. -/
def createWith (env : Env) (op : CreateOp) (value codeOffset codeSize salt : Word) : Code Unit := do
  room
  push 0
  setReturnData []
  if env.msg.isStaticMode then fail .staticModeViolation
  else do
    chargeInitCode env op codeOffset codeSize
    if env.msg.depth ≥ maxStack then pure ()
    else do
      let pays ← canPay env value
      when pays do
        let input ← memoryRead (regionOffset codeOffset codeSize.low64) codeSize.low64
        sendCreate env op value salt input

def create (env : Env) : CreateOp → Code Unit
  | .create => do
    let x ← operands 3
    createWith env .create (x 0) (x 1) (x 2) 0
  | .create2 => do
    let x ← operands 4
    createWith env .create2 (x 0) (x 1) (x 2) (x 3)

/-! ## Calls -/

def callValueCost : Nat := 9000

def accountCreationCost : Nat := 25000

def callGasStipend : Nat := 2300

/-- The address a delegation designation points to: `0xef0100` and 20 bytes. -/
def delegationTarget (designation : Bytes) : Option Address :=
  if designation.length = 23 ∧ designation.take 3 = [0xef, 0x01, 0x00] then
    some (Word.load (designation.drop 3)).toAddress
  else none

def resolveDelegatedCallCodeAddress (env : Env) (dest : Address) : Code Address :=
  if env.rev < .prague then pure dest
  else do
    let designation ← host (.copyCode dest 0 23)
    match delegationTarget (designation.take 23) with
    | none => pure dest
    | some codeAddress => do
      let access ← host (.accessAccount codeAddress)
      charge (if access = .cold then coldAccountAccessCost else warmStorageReadCost)
      pure codeAddress

def newAccountCost (env : Env) (op : CallOp) (dest : Address) (value : Word) : Code Nat :=
  if op.kind = .call ∧ (value ≠ 0 ∨ env.rev < .spuriousDragon) then do
    let found ← host (.accountExists dest)
    pure (if found then 0 else accountCreationCost)
  else pure 0

def chargeCallValue (env : Env) (op : CallOp) (dest : Address) (value : Word) : Code Unit :=
  if op.hasValueArgs then do
    let creation ← newAccountCost env op dest value
    charge ((if value ≠ 0 then callValueCost else 0) + creation)
  else pure ()

/-- The gas passed on: capped from Tangerine Whistle on, refused when too much before. -/
def capCallGas (env : Env) (requested : Word) : Code Nat := do
  let gasLeft ← gas
  let callGas := uint256ToUint64 requested
  if .tangerineWhistle ≤ env.rev then pure (min callGas (gasLeft - gasLeft / 64))
  else if callGas > gasLeft then fail .outOfGas
  else pure callGas

/-- The stipend of a call with value and the balance check; `none` is the light failure. -/
def addStipend (env : Env) (op : CallOp) (value : Word) (callGas : Nat) : Code (Option Nat) :=
  if op.hasValueArgs ∧ value ≠ 0 then do
    credit callGasStipend
    let b ← host (.getBalance env.msg.recipient)
    pure (if value.toNat ≤ b.toNat then some (callGas + callGasStipend) else none)
  else pure (some callGas)

/-- The flags a call passes on: static for a static call, else the frame's own. -/
def inheritedFlags (env : Env) (op : CallOp) : BitVec 32 :=
  if op = .staticcall then evmcStatic else env.msg.flags

/-- The flags of a call's message: the delegation bit is set exactly when the code comes from
another address than the callee's. -/
def callFlags (env : Env) (op : CallOp) (dest codeAddress : Address) : BitVec 32 :=
  if dest ≠ codeAddress then inheritedFlags env op ||| evmcDelegated
  else inheritedFlags env op &&& ~~~evmcDelegated

def callMessage (env : Env) (op : CallOp) (dest codeAddress : Address) (gas : Nat) (value : Word)
    (input : Bytes) : Message where
  kind := op.kind
  flags := callFlags env op dest codeAddress
  depth := env.msg.depth + 1
  gas := gas
  recipient := if op = .call ∨ op = .staticcall then dest else env.msg.recipient
  sender := if op = .delegatecall then env.msg.sender else env.msg.recipient
  input := input
  value := if op = .delegatecall then env.msg.value else value
  salt := 0
  codeAddress := codeAddress

/-- `CallHandler` from the call to the host on. -/
def sendCall (m : Message) (outputOffset outputSize : Nat) : Code Unit := do
  let r ← host (.call m)
  when (r.status = .success) do
    let _ ← pop 1
    push 1
  setReturnData r.output
  memoryWrite outputOffset (r.output.take outputSize)
  charge (m.gas - r.gasLeft.toNat)
  addRefund r.gasRefund

/-- `CallHandler` after its operands are popped; `value` is zero for the opcodes without one. -/
def callWith (env : Env) (op : CallOp) (requested : Word) (dest : Address)
    (value inputOffset inputSize outputOffset outputSize : Word) : Code Unit := do
  room
  push 0
  setReturnData []
  chargeAccountAccess env dest
  let codeAddress ← resolveDelegatedCallCodeAddress env dest
  if op = .call ∧ value ≠ 0 ∧ env.msg.isStaticMode then fail .staticModeViolation
  else do
    checkMemoryExpandAndChargeGas inputOffset inputSize
    checkMemoryExpandAndChargeGas outputOffset outputSize
    chargeCallValue env op dest value
    let capped ← capCallGas env requested
    let sent ← addStipend env op value capped
    match sent with
    | none => pure ()
    | some callGas =>
      if env.msg.depth ≥ maxStack then pure ()
      else do
        let input ← memoryRead (regionOffset inputOffset inputSize.low64) inputSize.low64
        sendCall (callMessage env op dest codeAddress callGas value input)
          (regionOffset outputOffset outputSize.low64) outputSize.low64

def call (env : Env) (op : CallOp) : Code Unit :=
  if op.hasValueArgs then do
    let x ← operands 7
    callWith env op (x 0) (x 1).toAddress (x 2) (x 3) (x 4) (x 5) (x 6)
  else do
    let x ← operands 6
    callWith env op (x 0) (x 1).toAddress 0 (x 2) (x 3) (x 4) (x 5)

/-! ## Logs and self-destruction -/

/-- `LogHandler` for `LOG0` to `LOG4`. -/
def log (env : Env) (numTopics : Nat) : Code Unit :=
  if env.msg.isStaticMode then fail .staticModeViolation
  else do
    need (numTopics + 2)
    let x ← pop 2
    checkMemoryExpandAndChargeGas (x 0) (x 1)
    let size := (x 1).low64
    charge (8 * size)
    let topics ← pop numTopics
    let data ← memoryRead (regionOffset (x 0) size) size
    host (.emitLog env.msg.recipient data (List.ofFn topics))

def extraRefundBeforeLondon : Int := 24000

/-- The EIP-2929 charge of `SelfDestructHandler`. -/
def chargeBeneficiaryAccess (env : Env) (beneficiary : Address) : Code Unit :=
  if .berlin ≤ env.rev then do
    let access ← host (.accessAccount beneficiary)
    when (access = .cold) (charge coldAccountAccessCost)
  else pure ()

/-- Whether `SelfDestructHandler` looks for the beneficiary's account: always in Tangerine
Whistle, with a balance to move after it. -/
def mayCreateBeneficiary (env : Env) : Code Bool :=
  if .tangerineWhistle ≤ env.rev then
    if env.rev = .tangerineWhistle then pure true
    else do
      let b ← host (.getBalance env.msg.recipient)
      pure (decide (b ≠ 0))
  else pure false

def selfDestruct (env : Env) : Code Unit :=
  if env.msg.isStaticMode then fail .staticModeViolation
  else do
    let x ← operands 1
    let beneficiary := (x 0).toAddress
    chargeBeneficiaryAccess env beneficiary
    let mayCreate ← mayCreateBeneficiary env
    when mayCreate do
      let found ← host (.accountExists beneficiary)
      when (found = false) (charge accountCreationCost)
    let first ← host (.selfdestruct env.msg.recipient beneficiary)
    when (first ∧ env.rev < .london) (addRefund extraRefundBeforeLondon)
    setReturnData []
    finish .success

/-! ## Returning -/

/-- The return data of `ReturnHandler` and `RevertHandler`. -/
def returnedData : Code Bytes := do
  let x ← operands 2
  checkMemoryExpandAndChargeGas (x 0) (x 1)
  let size := (x 1).low64
  memoryRead (regionOffset (x 0) size) size

def return' : Code Unit := do
  let data ← returnedData
  setReturnData data
  finish .success

def revert (env : Env) : Code Unit := do
  let data ← returnedData
  setReturnData data
  setRefund env.refundSnapshot
  finish .revert

/-- `OP_STOP`, and the end of the code. -/
@[reducible] def stop : Code Unit := do
  setReturnData []
  finish .success

/-! ## What the shared parts perform -/

attribute [reducible] canPay addStipend capCallGas newAccountCost chargeCallValue return' revert

section Within

open Program

variable {env : Env} {may : FrameOp → Prop}

instance [∀ a, Holds (may (.host (.getBalance a)))] : Within may (mayCreateBeneficiary env) := by
  unfold mayCreateBeneficiary; infer_instance

section Charge

variable [∀ n, Holds (may (.charge n))]

instance (a : Address) [∀ a, Holds (may (.host (.accessAccount a)))] : Within may (chargeAccountAccess env a) := by
  unfold chargeAccountAccess; infer_instance

instance (a : Address) [∀ a, Holds (may (.host (.accessAccount a)))] : Within may (chargeBeneficiaryAccess env a) := by
  unfold chargeBeneficiaryAccess; infer_instance

instance (a : Address) [∀ a, Holds (may (.host (.accessAccount a)))] [∀ a o n, Holds (may (.host (.copyCode a o n)))] :
    Within may (resolveDelegatedCallCodeAddress env a) := by
  unfold resolveDelegatedCallCodeAddress
  refine .ite inferInstance (.after fun designation => ?_)
  split <;> infer_instance

section Memory

variable (o n : Word) [Holds (may (.halt (.fail .outOfGas)))] [Holds (may .memorySize)]
  [∀ n, Holds (may (.memoryResize n))]

instance (n : Nat) : Within may (expandMemoryAndChargeGas n) := by
  unfold expandMemoryAndChargeGas; infer_instance

instance (n : Nat) : Within may (checkMemoryExpand64 o n) := by
  unfold checkMemoryExpand64; infer_instance

instance : Within may (checkMemoryExpandAndChargeGas o n) := by
  unfold checkMemoryExpandAndChargeGas; infer_instance

instance (op : CreateOp) : Within may (chargeInitCode env op o n) := by
  unfold chargeInitCode; infer_instance

end Memory

end Charge

end Within

end Handler

end Dtvm
