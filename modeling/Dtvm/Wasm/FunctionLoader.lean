import Dtvm.Wasm.Leb
import Dtvm.Wasm.Opcode

/-!
# The function loader

`FunctionLoader::load`: one pass over the bytes of a function body that decodes and validates them. The
loader keeps the types of the operand stack and the open blocks, counts the bytes that the operands take
(`StackSize`) and remembers the greatest count and the deepest nesting for the interpreter's frames. A
`drop` or `select` of a value of eight bytes is overwritten by an opcode of its own.

The build is the default one, in which functions alone can be imported.
-/

namespace Dtvm.Wasm

open Effect

/-- The errors of the loader. `assertion` stands for an assertion that fails. -/
inductive LoadError where
  | leb (e : LebError)
  | unexpectedEnd
  | invalidType
  | typeMismatch
  | typeMismatchStackSize
  | typeMismatchExpectDataStackEmpty
  | typeMismatchBrTableTargets
  | typeMismatchElseMissing
  | typeMismatchSelectStackEmpty
  | elseMismatchIf
  | unknownLabel
  | unknownLocal
  | unknownGlobal
  | globalIsImmutable
  | unknownMemory
  | unknownFunction
  | unknownTypeIdx
  | unknownTable
  | zeroFlagExpected
  | alignMustLargerThanNatural
  | opcodesRemainAfterEndOfFunction
  | unsupportedOpcode
  | blockStackNotEmptyAtEndOfFunction
  | assertion
deriving DecidableEq, Repr

structure GlobalEntry where
  type : ValType
  mutable : Bool
deriving DecidableEq, Repr

/-- What the loader reads of the module. Imported functions come first. -/
structure ModuleContext where
  types : List TypeEntry
  functions : List TypeEntry
  globals : List GlobalEntry
  hasTable : Bool
  hasMemory : Bool

def presetMaxFunctionSize : Nat := 16 * 1024 * 1024

/-- A function with its body. The module loader refuses longer ones. -/
structure CodeEntry where
  type : TypeEntry
  localTypes : List ValType
  code : List UInt8
  small : code.length ≤ presetMaxFunctionSize

/-- The type of a control block: a value type or, for the function, its type. -/
inductive ControlBlockType where
  | value (t : BlockType)
  | func (t : TypeEntry)
deriving DecidableEq, Repr

namespace ControlBlockType

def getParamTypes : ControlBlockType → List ValType
  | .value _ => []
  | .func t => t.params

def getReturnTypes : ControlBlockType → List ValType
  | .value t => t.toList
  | .func t => t.result.toList

def isBalanced : ControlBlockType → Bool
  | .value t => t = none
  | .func t => t.params = t.result.toList

end ControlBlockType

structure ControlBlock where
  stackPolymorphic : Bool
  labelType : LabelType
  blockType : ControlBlockType
  startPtr : Nat
  elsePtr : Option Nat
  initStackSize : Nat
  initNumValues : Nat
deriving DecidableEq, Repr

/-- The fields of the loader for types. The blocks are innermost first, the types topmost first. -/
structure Typing where
  stackSize : Nat
  maxStackSize : Nat
  maxBlockDepth : Nat
  controlBlocks : List ControlBlock
  valueTypes : List WASMType
deriving DecidableEq, Repr

namespace Typing

/-- `ControlBlocks.back()`. -/
def back (v : Typing) : Except LoadError ControlBlock :=
  match v.controlBlocks with
  | [] => .error .assertion
  | block :: _ => .ok block

def pushBlock (label : LabelType) (type : ControlBlockType) (startPtr : Nat) (v : Typing) : Typing :=
  let blocks := ⟨false, label, type, startPtr, none, v.stackSize, v.valueTypes.length⟩ :: v.controlBlocks
  { v with
    controlBlocks := blocks
    maxBlockDepth := max v.maxBlockDepth blocks.length }

def popBlock (v : Typing) : Typing := { v with controlBlocks := v.controlBlocks.tail }

/-- `ValueTypes.resize`, to a length that is not greater. -/
def resetStack (v : Typing) : Except LoadError Typing := do
  let block ← v.back
  .ok { v with
    stackSize := block.initStackSize
    valueTypes := v.valueTypes.drop (v.valueTypes.length - block.initNumValues) }

def setStackPolymorphic (polymorphic : Bool) (v : Typing) : Typing :=
  match v.controlBlocks with
  | [] => v
  | block :: blocks => { v with controlBlocks := { block with stackPolymorphic := polymorphic } :: blocks }

def pushValueType (t : WASMType) (v : Typing) : Typing :=
  { v with
    valueTypes := t :: v.valueTypes
    stackSize := v.stackSize + t.size
    maxStackSize := max v.maxStackSize (v.stackSize + t.size) }

/-- The type that is popped when `expected` is asked for and `top` is there. -/
def meet (top expected : WASMType) : Except LoadError WASMType :=
  match top, expected with
  | .any, .any => .error .typeMismatch
  | .any, t => .ok t
  | top, .any => .ok top
  | top, t => if top = t then .ok t else .error .typeMismatch

def popValueType (expected : WASMType) (v : Typing) : Except LoadError (WASMType × Typing) := do
  let block ← v.back
  if v.valueTypes.length = block.initNumValues then
    if block.stackPolymorphic then .ok (.any, v) else .error .typeMismatchStackSize
  else match v.valueTypes with
    | [] => .error .assertion
    | top :: types => do
      let t ← meet top expected
      if v.stackSize < t.size then .error .typeMismatchStackSize
      else .ok (t, { v with stackSize := v.stackSize - t.size, valueTypes := types })

def popVal (t : ValType) (v : Typing) : Except LoadError Typing := do
  let (_, v) ← v.popValueType (.val t)
  .ok v

def popValueTypes : List ValType → Typing → Except LoadError Typing
  | [], v => .ok v
  | t :: ts, v => do
    let v ← popValueTypes ts v
    v.popVal t

def pushValueTypes (ts : List ValType) (v : Typing) : Typing :=
  ts.foldl (fun v t => v.pushValueType (.val t)) v

def popAndPushValueType (numPops : Nat) (popped pushed : ValType) (v : Typing) : Except LoadError Typing := do
  let v ← popValueTypes (List.replicate numPops popped) v
  .ok (v.pushValueType (.val pushed))

def pushBlockParamTypes (v : Typing) : Except LoadError Typing := do
  let block ← v.back
  .ok (v.pushValueTypes block.blockType.getParamTypes)

/-- The types on top of a copy of the stack, given from the last one on. -/
def checkTargetBlockStack : List ValType → List WASMType → Nat → Except LoadError Unit
  | [], _, _ => .ok ()
  | t :: ts, types, avail =>
    if t.size > avail then .error .typeMismatchExpectDataStackEmpty
    else match types with
      | [] => .error .assertion
      | top :: types =>
        if top ≠ .val t then .error .typeMismatch else checkTargetBlockStack ts types (avail - t.size)

/-- `checkTopTypes` for the innermost block, as `checkBlockStack` calls it. -/
def checkTopTypes (types : List ValType) (v : Typing) : Except LoadError Typing := do
  let block ← v.back
  if v.stackSize < block.initStackSize then .error .typeMismatchStackSize
  else if block.stackPolymorphic then do
    let v ← v.popValueTypes types
    let v := v.pushValueTypes types
    if v.valueTypes.length - block.initNumValues ≠ types.length then .error .typeMismatchStackSize
    else if !types.all (fun t => v.valueTypes.head? = some (.val t)) then .error .typeMismatch
    else .ok v
  else if (v.stackSize - block.initStackSize) >>> 2 ≠ numCells types then .error .typeMismatchStackSize
  else do
    checkTargetBlockStack types.reverse v.valueTypes (v.stackSize - block.initStackSize)
    .ok v

def checkBlockStack (v : Typing) : Except LoadError Typing := do
  let block ← v.back
  v.checkTopTypes block.blockType.getReturnTypes

def labelTypes (block : ControlBlock) : List ValType :=
  if block.labelType = .loop then block.blockType.getParamTypes else block.blockType.getReturnTypes

/-- `checkBranch` after the depth has been read: the target block. The bytes of the current block are
counted modulo `2^32`. -/
def checkBranch (depth : Nat) (v : Typing) : Except LoadError (ControlBlock × Typing) :=
  match v.controlBlocks[depth]? with
  | none => .error .unknownLabel
  | some target => do
    let block ← v.back
    if block.stackPolymorphic then do
      let v ← v.popValueTypes (labelTypes target)
      .ok (target, v.pushValueTypes (labelTypes target))
    else do
      let avail := (v.stackSize + 2 ^ 32 - block.initStackSize) % 2 ^ 32
      checkTargetBlockStack (labelTypes target).reverse v.valueTypes avail
      .ok (target, v)

/-- The types by which the targets of `br_table` are compared. -/
def targetTypes (block : ControlBlock) : List ValType :=
  if block.labelType = .loop then [] else block.blockType.getReturnTypes

def leave (v : Typing) : Except LoadError Typing := do
  let v ← v.resetStack
  .ok (v.setStackPolymorphic true)

def openBlock (label : LabelType) (t : BlockType) (startPtr : Nat) (v : Typing) : Except LoadError Typing :=
  (v.pushBlock label (.value t) startPtr).pushBlockParamTypes

/-- `ELSE`, at this address. -/
def elseBlock (ptr : Nat) (v : Typing) : Except LoadError Typing := do
  let block ← v.back
  if block.labelType ≠ .if ∨ block.elsePtr ≠ none then .error .elseMismatchIf
  else do
    let v ← v.checkBlockStack
    let v ← resetStack
      { v with controlBlocks := { block with elsePtr := some ptr } :: v.controlBlocks.tail }
    (v.setStackPolymorphic false).pushBlockParamTypes

/-- `END`; `last` says that no byte follows. -/
def endBlock (last : Bool) (v : Typing) : Except LoadError Typing := do
  let block ← v.back
  let v ← v.checkBlockStack
  if block.labelType = .if ∧ block.elsePtr = none ∧ !block.blockType.isBalanced then
    .error .typeMismatchElseMissing
  else if block.labelType = .function then
    if v.controlBlocks.length ≠ 1 then .error .assertion
    else if !last then .error .opcodesRemainAfterEndOfFunction
    else .ok v.popBlock
  else .ok v.popBlock

def callType (type : TypeEntry) (v : Typing) : Except LoadError Typing := do
  let v ← v.popValueTypes type.params
  .ok (v.pushValueTypes type.result.toList)

/-- `SELECT`: the type of the operands. -/
def selectType (v : Typing) : Except LoadError (WASMType × Typing) := do
  let v ← v.popVal .i32
  let (t₁, v) ← v.popValueType .any
  let (t₂, v) ← v.popValueType .any
  if t₁ ≠ t₂ ∧ t₁ ≠ .any ∧ t₂ ≠ .any then .error .typeMismatchSelectStackEmpty
  else
    let t := if t₁ ≠ .any then t₁ else t₂
    .ok (t, v.pushValueType t)

end Typing

def lookup {α : Type} (table : List α) (unknown : LoadError) (idx : Nat) : Except LoadError α :=
  match table[idx]? with
  | none => .error unknown
  | some entry => .ok entry

theorem lookup_eq_ok {α : Type} {table : List α} {unknown : LoadError} {idx : Nat} {entry : α} :
    lookup table unknown idx = .ok entry ↔ table[idx]? = some entry := by
  rw [lookup]
  cases table[idx]? with
  | none => exact ⟨nofun, nofun⟩
  | some _ => exact ⟨fun h => congrArg some (Except.ok.inj h), fun h => congrArg Except.ok (Option.some.inj h)⟩

structure FunctionLoader where
  code : List UInt8
  ptr : Nat
  typing : Typing
deriving DecidableEq, Repr

namespace FunctionLoader

def rest (s : FunctionLoader) : List UInt8 := s.code.drop s.ptr

def advance (s : FunctionLoader) (n : Nat) : FunctionLoader := { s with ptr := s.ptr + n }

def typed (f : Typing → Except LoadError Typing) (s : FunctionLoader) : Except LoadError FunctionLoader := do
  let v ← f s.typing
  .ok { s with typing := v }

def pushVal (t : ValType) (s : FunctionLoader) : Except LoadError FunctionLoader :=
  s.typed fun v => .ok (v.pushValueType (.val t))

/-! ## Reading -/

def readByte (s : FunctionLoader) : Except LoadError (UInt8 × FunctionLoader) :=
  match s.rest with
  | [] => .error .unexpectedEnd
  | b :: _ => .ok (b, s.advance 1)

/-- `readBytes`, whose bytes the loader does not look at. -/
def readBytes (n : Nat) (s : FunctionLoader) : Except LoadError FunctionLoader :=
  if s.ptr + n > s.code.length then .error .unexpectedEnd else .ok (s.advance n)

def readLEB (t : IntType) (s : FunctionLoader) : Except LoadError (BitVec t.width × FunctionLoader) :=
  if s.ptr ≥ s.code.length then .error .unexpectedEnd
  else match readLEBNumber t s.rest with
    | .error e => .error (.leb e)
    | .ok (v, n) => .ok (v, s.advance n)

def readU32 (s : FunctionLoader) : Except LoadError (Nat × FunctionLoader) := do
  let (v, s) ← s.readLEB .uint32
  .ok (v.toNat, s)

def readBlockType (s : FunctionLoader) : Except LoadError (BlockType × FunctionLoader) := do
  let (b, s) ← s.readByte
  match blockTypeFromOpcode b with
  | none => .error .invalidType
  | some t => .ok (t, s)

/-- `readU32` and a look-up in a table. -/
def readIdx {α : Type} (table : List α) (unknown : LoadError) (s : FunctionLoader) :
    Except LoadError (α × FunctionLoader) := do
  let (idx, s) ← s.readU32
  let entry ← lookup table unknown idx
  .ok (entry, s)

def readZero (s : FunctionLoader) : Except LoadError FunctionLoader := do
  let (b, s) ← s.readByte
  if b ≠ 0 then .error .zeroFlagExpected else .ok s

def checkBranch (s : FunctionLoader) : Except LoadError (ControlBlock × FunctionLoader) := do
  let (depth, s) ← s.readU32
  let (target, v) ← s.typing.checkBranch depth
  .ok (target, { s with typing := v })

/-- The targets of `br_table` after the first, all with its types. -/
def checkTargets (expected : List ValType) : Nat → FunctionLoader → Except LoadError FunctionLoader
  | 0, s => .ok s
  | n + 1, s => do
    let (target, s) ← s.checkBranch
    if expected ≠ Typing.targetTypes target then .error .typeMismatchBrTableTargets
    else checkTargets expected n s

/-! ## The loop -/

/-- Whether a value takes two cells, so that its `drop` or `select` is an opcode of its own. -/
def isWide (t : WASMType) : Bool := t = .val .i64 || t = .val .f64

def rewriteOpcode (t : WASMType) (b : UInt8) (s : FunctionLoader) : FunctionLoader :=
  if isWide t then { s with code := s.code.set (s.ptr - 1) b } else s

section Step

variable (ctx : ModuleContext) (fn : CodeEntry)

def readLocal (s : FunctionLoader) : Except LoadError (ValType × FunctionLoader) :=
  s.readIdx (fn.type.params ++ fn.localTypes) .unknownLocal

def readMemArg (align : Nat) (s : FunctionLoader) : Except LoadError FunctionLoader :=
  if !ctx.hasMemory then .error .unknownMemory
  else do
    let (actual, s) ← s.readU32
    let (_, s) ← s.readU32
    if actual > align then .error .alignMustLargerThanNatural else .ok s

def handle (op : Opcode) (s : FunctionLoader) : Except LoadError FunctionLoader :=
  match op with
  | .unreachable => s.typed Typing.leave
  | .nop => .ok s
  | .block => do
    let (t, s) ← s.readBlockType
    s.typed (Typing.openBlock .block t s.ptr)
  | .loop => do
    let (t, s) ← s.readBlockType
    s.typed (Typing.openBlock .loop t s.ptr)
  | .if => do
    let s ← s.typed (Typing.popVal .i32)
    let (t, s) ← s.readBlockType
    s.typed (Typing.openBlock .if t s.ptr)
  | .else => s.typed (Typing.elseBlock (s.ptr - 1))
  | .br => do
    let (_, s) ← s.checkBranch
    s.typed Typing.leave
  | .brIf => do
    let s ← s.typed (Typing.popVal .i32)
    let (_, s) ← s.checkBranch
    .ok s
  | .brTable => do
    let (numTargets, s) ← s.readU32
    let s ← s.typed (Typing.popVal .i32)
    let (target, s) ← s.checkBranch
    let s ← checkTargets (Typing.targetTypes target) numTargets s
    s.typed Typing.leave
  | .end => s.typed (Typing.endBlock (s.ptr ≥ s.code.length))
  | .getLocal => do
    let (t, s) ← s.readLocal fn
    s.pushVal t
  | .setLocal => do
    let (t, s) ← s.readLocal fn
    s.typed (Typing.popVal t)
  | .teeLocal => do
    let (t, s) ← s.readLocal fn
    let s ← s.typed (Typing.popVal t)
    s.pushVal t
  | .getGlobal => do
    let (g, s) ← s.readIdx ctx.globals .unknownGlobal
    s.pushVal g.type
  | .setGlobal => do
    let (g, s) ← s.readIdx ctx.globals .unknownGlobal
    if !g.mutable then .error .globalIsImmutable else s.typed (Typing.popVal g.type)
  | .memorySize =>
    if !ctx.hasMemory then .error .unknownMemory
    else do
      let s ← s.readZero
      s.pushVal .i32
  | .memoryGrow =>
    if !ctx.hasMemory then .error .unknownMemory
    else do
      let s ← s.readZero
      s.typed (Typing.popAndPushValueType 1 .i32 .i32)
  | .i32Const => do
    let (_, s) ← s.readLEB .int32
    s.pushVal .i32
  | .i64Const => do
    let (_, s) ← s.readLEB .int64
    s.pushVal .i64
  | .f32Const => do
    let s ← s.readBytes 4
    s.pushVal .f32
  | .f64Const => do
    let s ← s.readBytes 8
    s.pushVal .f64
  | .numeric op => s.typed (Typing.popAndPushValueType op.signature.numPops op.signature.popped op.signature.pushed)
  | .load op => do
    let s ← s.readMemArg ctx op.align
    s.typed (Typing.popAndPushValueType 1 .i32 op.result)
  | .store op => do
    let s ← s.readMemArg ctx op.align
    s.typed (Typing.popValueTypes [.i32, op.operand])
  | .drop => do
    let (t, v) ← s.typing.popValueType .any
    .ok (rewriteOpcode t 0xc5 { s with typing := v })
  | .select => do
    let (t, v) ← s.typing.selectType
    .ok (rewriteOpcode t 0xc6 { s with typing := v })
  | .return => do
    let s ← s.typed (Typing.popValueTypes fn.type.result.toList)
    s.typed Typing.leave
  | .call => do
    let (type, s) ← s.readIdx ctx.functions .unknownFunction
    s.typed (Typing.callType type)
  | .callIndirect => do
    let (type, s) ← s.readIdx ctx.types .unknownTypeIdx
    let s ← s.readZero
    if !ctx.hasTable then .error .unknownTable
    else do
      let s ← s.typed (Typing.popVal .i32)
      s.typed (Typing.callType type)
  | .getGlobal64 | .setGlobal64 | .drop64 | .select64 => .error .unsupportedOpcode

def step (s : FunctionLoader) : Except LoadError FunctionLoader := do
  let (b, s) ← s.readByte
  match Opcode.ofByte b with
  | none => .error .unsupportedOpcode
  | some op => s.handle ctx fn op

/-- The loop. Every turn reads a byte, so there are no more turns than bytes. -/
def loop : Nat → FunctionLoader → Except LoadError FunctionLoader
  | 0, s => if s.ptr < s.code.length then .error .assertion else .ok s
  | fuel + 1, s =>
    if s.ptr < s.code.length then do
      let s ← s.step ctx fn
      loop fuel s
    else .ok s

def start : FunctionLoader :=
  ⟨fn.code, 0, Typing.pushBlock .function (.func fn.type) 0 ⟨0, 0, 0, [], []⟩⟩

/-- `load`: the loader at the end, with what the code entry keeps of it. -/
def load : Except LoadError FunctionLoader := do
  let s ← loop ctx fn fn.code.length (start fn)
  if s.typing.controlBlocks.length > 0 then .error .blockStackNotEmptyAtEndOfFunction
  else if s.ptr ≠ s.code.length then .error .unexpectedEnd
  else .ok s

end Step

end FunctionLoader

end Dtvm.Wasm
