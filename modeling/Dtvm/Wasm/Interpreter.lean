import Dtvm.Effect.System
import Dtvm.Wasm.BlockScan

/-!
# The WebAssembly interpreter

`BaseInterpreterImpl::interpret`, over the bytes of the functions. The interpreter stack is an array of
cells of four bytes, addressed in bytes; a frame is a part of it with the locals, the frame itself, the
control stack and the value stack. Frames and control stacks are records here, at the addresses that they
have. What the numeric operators compute is a parameter (`Numerics`), and so is what a host function does to
the instance (`Answer`).

An assertion that fails aborts in every build.
-/

namespace Dtvm.Wasm

open Effect

/-! ## Modules and instances -/

inductive ErrorCode where
  | unreachable
  | outOfBoundsMemory
  | integerOverflow
  | integerDivByZero
  | invalidConversionToInteger
  | undefinedElement
  | uninitializedElement
  | indirectCallTypeMismatch
  | callStackExhausted
  | gasLimitExceeded
  | host (code : Nat)
deriving DecidableEq, Repr

/-- The assertions of the interpreter. `code` is for code that has not been validated. -/
inductive Assertion where
  | leb
  | code
  | valueStack
  | controlStack
  | noMemory
deriving DecidableEq, Repr

inductive Stop where
  | trap (e : ErrorCode)
  | abort (a : Assertion)
  | finished
deriving DecidableEq, Repr

/-- `FunctionInstance`; a native function has no code here. -/
structure FunctionInstance where
  native : Bool
  type : TypeEntry
  localTypes : List ValType
  code : List UInt8
  maxStackSize : Nat
  maxBlockDepth : Nat

namespace FunctionInstance

variable (f : FunctionInstance)

def numParamCells : Nat := numCells f.type.params

def numLocalCells : Nat := numCells f.localTypes

def numReturnCells : Nat := numCells f.type.result.toList

def getLocalType (idx : Nat) : Option ValType := (f.type.params ++ f.localTypes)[idx]?

/-- `getLocalOffset`, in cells. -/
def getLocalOffset (idx : Nat) : Nat := numCells ((f.type.params ++ f.localTypes).take idx)

end FunctionInstance

/-- `DefaultBytesNumPerPage`. -/
def bytesPerPage : Nat := 65536

/-- `MemoryInstance`, with its bytes. -/
structure MemoryInstance where
  curPages : Nat
  maxPages : Nat
  memSize : Nat
  bytes : Nat → UInt8
  sized : memSize = curPages * bytesPerPage

/-- `Instance::growLinearMemory` of the default memory; `allocated` says whether there was room. -/
def MemoryInstance.growLinearMemory (delta : Nat) (allocated : Bool) (m : MemoryInstance) :
    Bool × MemoryInstance :=
  if delta = 0 then (true, m)
  else
    let newMemPages := (m.curPages + delta) % 2 ^ 32
    if newMemPages < m.curPages ∨ newMemPages > m.maxPages then (false, m)
    else
      let newMemSize := newMemPages * bytesPerPage
      if newMemSize ≥ 2 ^ 32 - 1 then (false, m)
      else if !allocated then (false, m)
      else (true, { m with
        curPages := newMemPages
        memSize := newMemSize
        sized := rfl
        bytes := fun i => if i < m.memSize then m.bytes i else 0 })

/-- What the interpreter uses of an instance. A global is two cells, of which a narrow one uses the first. -/
structure Instance where
  memory : Option MemoryInstance
  globals : Nat → UInt32 × UInt32
  gas : Nat

/-- What the interpreter reads of the module and its instance and does not change. -/
structure Module where
  functions : List FunctionInstance
  types : List TypeEntry
  globalTypes : List ValType
  gasFuncIdx : Option Nat
  elements : List UInt32

/-- What the numeric operators compute from the cells of their operands. -/
abbrev Numerics := NumericOp → List UInt32 → Except ErrorCode (Nat → UInt32)

/-- What is not determined by the interpreter: whether memory can be had, and what a host function does. It
grows the memory by `Instance::growLinearMemory`, writes memory and globals, and returns or fails. -/
structure Answer where
  allocated : Bool
  grows : List (Nat × Bool)
  bytes : Nat → UInt8
  globals : Nat → UInt32 × UInt32
  gas : Nat
  outcome : Except ErrorCode (Nat → UInt32)

/-! ## Frames -/

structure BlockInfo where
  targetAddr : Nat
  valueStackPtr : Nat
  cellNum : Nat
  labelType : LabelType
deriving DecidableEq, Repr

/-- `sizeof(BlockInfo)` and `sizeof(InterpFrame)`. -/
def sizeofBlockInfo : Nat := 24

@[inherit_doc sizeofBlockInfo]
def sizeofInterpFrame : Nat := 80

/-- `InterpFrame`, with the interpreter's own copies of its pointers. The control stack is innermost first;
`address` is where the frame lies. -/
structure InterpFrame where
  funcIdx : Nat
  ip : Nat
  address : Nat
  ctrlBasePtr : Nat
  ctrl : List BlockInfo
  ctrlBoundary : Nat
  valueBasePtr : Nat
  valueStackPtr : Nat
  valueBoundary : Nat
  localPtr : Nat

def presetReservedStackSize : Nat := 4 * 1024 * 1024

/-- The interpreter at the head of its loop. The current frame is the first one. -/
structure Interp where
  frames : List InterpFrame
  cells : Nat → UInt32
  top : Nat
  linearMemSize : Nat
  cache : BlockAddrCache
  inst : Instance

/-! ## The value stack -/

def readCells (cells : Nat → UInt32) (addr n : Nat) : List UInt32 :=
  (List.range n).map fun i => cells (addr + 4 * i)

def writeCells (cells : Nat → UInt32) (addr : Nat) (values : List UInt32) : Nat → UInt32 := fun a =>
  match values[(a - addr) / 4]? with
  | some v => if addr ≤ a ∧ (a - addr) % 4 = 0 then v else cells a
  | none => cells a

namespace Interp

variable (s : Interp)

def frame : Except Stop InterpFrame :=
  match s.frames with
  | [] => .error .finished
  | f :: _ => .ok f

def setFrame (f : InterpFrame) : Interp := { s with frames := f :: s.frames.tail }

/-- `valuePush`, cell by cell of one value. -/
def valuePush (values : List UInt32) : Except Stop Interp := do
  let f ← s.frame
  let ptr := f.valueStackPtr + 4 * values.length
  if ptr > f.valueBoundary then .error (.abort .valueStack)
  else .ok { s.setFrame { f with valueStackPtr := ptr } with
    cells := writeCells s.cells f.valueStackPtr values }

/-- `valuePop` of a value of so many cells. -/
def valuePop (n : Nat) : Except Stop (List UInt32 × Interp) := do
  let f ← s.frame
  if f.valueStackPtr < f.valueBasePtr + 4 * n then .error (.abort .valueStack)
  else
    let ptr := f.valueStackPtr - 4 * n
    .ok (readCells s.cells ptr n, s.setFrame { f with valueStackPtr := ptr })

/-- `valuePop` of a value of one cell. -/
def valuePop32 : Except Stop (UInt32 × Interp) := do
  let (values, s) ← s.valuePop 1
  .ok (values.headD 0, s)

def valuePops : List Nat → Interp → Except Stop (List UInt32 × Interp)
  | [], s => .ok ([], s)
  | n :: ns, s => do
    let (last, s) ← valuePops ns s
    let (values, s) ← s.valuePop n
    .ok (values ++ last, s)

def setIp (ip : Nat) : Except Stop Interp := do
  let f ← s.frame
  .ok (s.setFrame { f with ip := ip })

def blockPush (target cellNum : Nat) (label : LabelType) : Except Stop Interp := do
  let f ← s.frame
  if f.ctrlBasePtr + sizeofBlockInfo * f.ctrl.length > f.ctrlBoundary then .error (.abort .controlStack)
  else .ok (s.setFrame { f with ctrl := ⟨target, f.valueStackPtr, cellNum, label⟩ :: f.ctrl })

/-- `blockPop` of the innermost block. -/
def blockPop : Except Stop Interp := do
  let f ← s.frame
  .ok (s.setFrame { f with ctrl := f.ctrl.tail })

/-- `blockPop` to a block: a branch. -/
def branch (depth : Nat) : Except Stop Interp := do
  let f ← s.frame
  match f.ctrl.drop depth with
  | [] => .error (.abort .controlStack)
  | block :: outer =>
    let f := { f with ctrl := block :: outer, ip := block.targetAddr }
    if block.labelType = .loop then .ok (s.setFrame { f with valueStackPtr := block.valueStackPtr })
    else
      let values := readCells s.cells (f.valueStackPtr - 4 * block.cellNum) block.cellNum
      .ok { s.setFrame { f with valueStackPtr := block.valueStackPtr + 4 * block.cellNum } with
        cells := writeCells s.cells block.valueStackPtr values }

/-! ## Calls -/

/-- `allocFrame`: the locals, the frame, the control stack and the value stack, in this order. `none` when
the stack is exhausted. -/
def allocFrame (funcIdx : Nat) (f : FunctionInstance) (localPtr : Nat) (s : Interp) : Option Interp :=
  let localSize := 4 * f.numLocalCells
  let controlSize := f.maxBlockDepth * sizeofBlockInfo
  if s.top + localSize + sizeofInterpFrame + f.maxStackSize + controlSize ≥ presetReservedStackSize then none
  else
    let address := s.top + localSize
    let ctrlBasePtr := address + sizeofInterpFrame
    let valueBasePtr := ctrlBasePtr + controlSize
    let frame : InterpFrame :=
      { funcIdx, ip := 0, address, ctrlBasePtr, ctrl := [], ctrlBoundary := valueBasePtr
        valueBasePtr, valueStackPtr := valueBasePtr, valueBoundary := valueBasePtr + f.maxStackSize
        localPtr }
    some { s with
      frames := frame :: s.frames
      cells := writeCells s.cells s.top (List.replicate f.numLocalCells 0)
      top := valueBasePtr + f.maxStackSize }

def pushFunctionLabel (f : FunctionInstance) (s : Interp) : Except Stop Interp :=
  s.blockPush (f.code.length - 1) f.numReturnCells .function

/-- `callFuncInst` of a native function. -/
def callNative (f : FunctionInstance) (ans : Answer) (s : Interp) : Except Stop Interp := do
  let (_, s) ← valuePops (f.type.params.map ValType.cellNum) s
  let memory := s.inst.memory.map fun m =>
    let m := ans.grows.foldl (fun m g => (m.growLinearMemory g.1 g.2).2) m
    { m with bytes := ans.bytes }
  let s := { s with inst := ⟨memory, ans.globals, ans.gas⟩ }
  match ans.outcome, f.type.result with
  | .error e, _ => .error (.trap e)
  | .ok _, none => .ok s
  | .ok values, some t => s.valuePush ((List.range t.cellNum).map values)

/-- `callFuncInst`. The arguments on the caller's value stack become the first locals of the callee. -/
def callFuncInst (funcIdx : Nat) (f : FunctionInstance) (ans : Answer) (s : Interp) : Except Stop Interp :=
  if f.native then s.callNative f ans
  else do
    let caller ← s.frame
    let localPtr := caller.valueStackPtr - 4 * f.numParamCells
    match allocFrame funcIdx f localPtr s with
    | none => .error (.trap .callStackExhausted)
    | some s =>
      let cells := writeCells s.cells (localPtr + 4 * f.numParamCells) (List.replicate f.numLocalCells 0)
      pushFunctionLabel f { s with cells }

/-- `freeFrame`, the copy of the result to the caller's value stack, and `updateFrame`. -/
def returnFrame (f : FunctionInstance) (s : Interp) : Except Stop Interp := do
  let frame ← s.frame
  let values := readCells s.cells (frame.valueStackPtr - 4 * f.numReturnCells) f.numReturnCells
  let s := { s with
    frames := s.frames.tail
    top := frame.address - 4 * f.numLocalCells
    cells := writeCells s.cells frame.localPtr values }
  match s.frames with
  | [] => .ok s
  | caller :: _ =>
    .ok (s.setFrame { caller with
      valueStackPtr := caller.valueStackPtr - 4 * f.numParamCells + 4 * f.numReturnCells })

/-! ## Loads and stores -/

end Interp

def LoadOp.width : LoadOp → Nat
  | .i32Load | .f32Load | .i64Load32S | .i64Load32U => 4
  | .i64Load | .f64Load => 8
  | .i32Load8S | .i32Load8U | .i64Load8S | .i64Load8U => 1
  | .i32Load16S | .i32Load16U | .i64Load16S | .i64Load16U => 2

def LoadOp.isSigned : LoadOp → Bool
  | .i32Load8S | .i32Load16S | .i64Load8S | .i64Load16S | .i64Load32S => true
  | _ => false

def StoreOp.width : StoreOp → Nat
  | .i32Store | .f32Store | .i64Store32 => 4
  | .i64Store | .f64Store => 8
  | .i32Store8 | .i64Store8 => 1
  | .i32Store16 | .i64Store16 => 2

namespace Interp

def readBytes (bytes : Nat → UInt8) (addr : Nat) : Nat → Nat
  | 0 => 0
  | n + 1 => (bytes addr).toNat + 256 * readBytes bytes (addr + 1) n

def toCells (cells value : Nat) : List UInt32 :=
  (List.range cells).map fun i => UInt32.ofNat (value / 2 ^ (32 * i))

def ofCells : List UInt32 → Nat
  | [] => 0
  | c :: cells => c.toNat + 2 ^ 32 * ofCells cells

def memory (s : Interp) : Except Stop MemoryInstance :=
  match s.inst.memory with
  | none => .error (.abort .noMemory)
  | some m => .ok m

/-- `loadOp`, after its immediates. -/
def loadOp (op : LoadOp) (offset : Nat) (s : Interp) : Except Stop Interp := do
  let m ← s.memory
  let (addr, s) ← s.valuePop32
  if offset + op.width + addr.toNat > s.linearMemSize then .error (.trap .outOfBoundsMemory)
  else
    let value := readBytes m.bytes (offset + addr.toNat) op.width
    let value :=
      if op.isSigned ∧ value ≥ 2 ^ (8 * op.width - 1) then value + 2 ^ 64 - 2 ^ (8 * op.width) else value
    s.valuePush (toCells op.result.cellNum value)

/-- `storeOp`, after its immediates. -/
def storeOp (op : StoreOp) (offset : Nat) (s : Interp) : Except Stop Interp := do
  let m ← s.memory
  let (values, s) ← s.valuePop op.operand.cellNum
  let (addr, s) ← s.valuePop32
  if offset + op.width + addr.toNat > s.linearMemSize then .error (.trap .outOfBoundsMemory)
  else
    let start := offset + addr.toNat
    let bytes := fun a =>
      if start ≤ a ∧ a < start + op.width then UInt8.ofNat (ofCells values / 256 ^ (a - start)) else m.bytes a
    .ok { s with inst := { s.inst with memory := some { m with bytes } } }

/-! ## Other instructions -/

/-- `selectOp` of values of so many cells. -/
def selectOp (n : Nat) (s : Interp) : Except Stop Interp := do
  let (cond, s) ← s.valuePop32
  let (v₁, s) ← s.valuePop n
  let (v₂, s) ← s.valuePop n
  s.valuePush (if cond ≠ 0 then v₂ else v₁)

def valueGet (addr n : Nat) (s : Interp) : Except Stop (List UInt32) := do
  let f ← s.frame
  if addr ≥ f.valueStackPtr ∨ f.valueStackPtr < addr + 4 * n ∨ addr < f.localPtr then .error (.abort .valueStack)
  else .ok (readCells s.cells addr n)

def valueSet (addr : Nat) (values : List UInt32) (s : Interp) : Except Stop Interp := do
  let f ← s.frame
  if addr ≥ f.valueStackPtr then .error (.abort .valueStack)
  else .ok { s with cells := writeCells s.cells addr values }

def localAt (f : FunctionInstance) (idx : Nat) (s : Interp) : Except Stop (Nat × Nat) := do
  let frame ← s.frame
  match f.getLocalType idx with
  | none => .error (.abort .code)
  | some t => .ok (t.cellNum, frame.localPtr + 4 * f.getLocalOffset idx)

def globalCells (s : Interp) (idx : Nat) : List UInt32 := [(s.inst.globals idx).1, (s.inst.globals idx).2]

def setGlobalCells (idx : Nat) (values : List UInt32) (s : Interp) : Interp :=
  let old := s.inst.globals idx
  { s with inst := { s.inst with
    globals := Function.update s.inst.globals idx (values.headD old.1, values[1]?.getD old.2) } }

end Interp

/-- The cells of the operands and of the result of a numeric operator in the interpreter. The values of
reinterpretations stay where they are. -/
def NumericOp.effect : NumericOp → Option (List Nat × Nat)
  | .i32Eqz | .i32Clz | .i32Ctz | .i32Popcnt | .f32Abs | .f32Neg | .f32Ceil | .f32Floor | .f32Trunc
  | .f32Nearest | .f32Sqrt | .i32TruncSF32 | .i32TruncUF32 | .f32ConvertSI32 | .f32ConvertUI32
  | .i32Extend8S | .i32Extend16S => some ([1], 1)
  | .i32Eq | .i32Ne | .i32LtS | .i32LtU | .i32GtS | .i32GtU | .i32LeS | .i32LeU | .i32GeS | .i32GeU
  | .f32Eq | .f32Ne | .f32Lt | .f32Gt | .f32Le | .f32Ge | .i32Add | .i32Sub | .i32Mul | .i32DivS
  | .i32DivU | .i32RemS | .i32RemU | .i32And | .i32Or | .i32Xor | .i32Shl | .i32ShrS | .i32ShrU
  | .i32Rotl | .i32Rotr | .f32Add | .f32Sub | .f32Mul | .f32Div | .f32Min | .f32Max | .f32Copysign
    => some ([1, 1], 1)
  | .i64Eqz | .i32WrapI64 | .i32TruncSF64 | .i32TruncUF64 | .f32ConvertSI64 | .f32ConvertUI64
  | .f32DemoteF64 => some ([2], 1)
  | .i64Eq | .i64Ne | .i64LtS | .i64LtU | .i64GtS | .i64GtU | .i64LeS | .i64LeU | .i64GeS | .i64GeU
  | .f64Eq | .f64Ne | .f64Lt | .f64Gt | .f64Le | .f64Ge => some ([2, 2], 1)
  | .i64Clz | .i64Ctz | .i64Popcnt | .f64Abs | .f64Neg | .f64Ceil | .f64Floor | .f64Trunc | .f64Nearest
  | .f64Sqrt | .i64TruncSF64 | .i64TruncUF64 | .f64ConvertSI64 | .f64ConvertUI64 | .i64Extend8S
  | .i64Extend16S | .i64Extend32S => some ([2], 2)
  | .i64Add | .i64Sub | .i64Mul | .i64DivS | .i64DivU | .i64RemS | .i64RemU | .i64And | .i64Or
  | .i64Xor | .i64Shl | .i64ShrS | .i64ShrU | .i64Rotl | .i64Rotr | .f64Add | .f64Sub | .f64Mul
  | .f64Div | .f64Min | .f64Max | .f64Copysign => some ([2, 2], 2)
  | .i64ExtendSI32 | .i64ExtendUI32 | .i64TruncSF32 | .i64TruncUF32 | .f64ConvertSI32 | .f64ConvertUI32
  | .f64PromoteF32 => some ([1], 2)
  | .i32ReinterpretF32 | .i64ReinterpretF64 | .f32ReinterpretI32 | .f64ReinterpretI64 => none

namespace Interp

def numericOp (num : Numerics) (op : NumericOp) (s : Interp) : Except Stop Interp :=
  match op.effect with
  | none => .ok s
  | some (operands, result) => do
    let (values, s) ← valuePops operands s
    match num op values with
    | .error e => .error (.trap e)
    | .ok cells => s.valuePush ((List.range result).map cells)

def chargeGas (s : Interp) : Except Stop Interp := do
  let (delta, s) ← s.valuePop 2
  if s.inst.gas < ofCells delta then .error (.trap .gasLimitExceeded)
  else .ok { s with inst := { s.inst with gas := s.inst.gas - ofCells delta } }

def memoryGrow (ans : Answer) (s : Interp) : Except Stop Interp := do
  let m ← s.memory
  let (delta, s) ← s.valuePop32
  let (grown, m') := m.growLinearMemory delta.toNat ans.allocated
  let s ← s.valuePush [if grown then UInt32.ofNat m.curPages else 0xffffffff]
  .ok { s with inst := { s.inst with memory := some m' }, linearMemSize := m'.memSize }

/-! ## The loop -/

/-- `readSafeLEBNumber` of an `uint32_t`: the number and the address behind it. -/
def readU32 (code : List UInt8) (ip : Nat) : Except Stop (Nat × Nat) :=
  match readSafeLEBNumber .uint32 (code.drop ip) with
  | none => .error (.abort .code)
  | some (v, n) => .ok (v.toNat, ip + n)

def blockCells (code : List UInt8) (ip : Nat) : Except Stop Nat :=
  match code[ip]? >>= blockTypeFromOpcode with
  | none => .error (.abort .code)
  | some t => .ok t.cellNum

/-- Skip the labels of `br_table` before the one that is taken. -/
def skipLabels (code : List UInt8) (n ip : Nat) : Except Stop Nat :=
  match skips (List.replicate n .uint8) (code.drop ip) with
  | none => .error (.abort .leb)
  | some k => .ok (ip + k)

/-- `findBlockAddr` for the current function: the addresses of `else` and `end`. -/
def findBlock (code : List UInt8) (ip : Nat) (s : Interp) : Except Stop (Option Nat × Nat × Interp) := do
  let f ← s.frame
  match findBlockAddr f.funcIdx code ip s.cache with
  | some (⟨elsePtr, some endPtr⟩, cache) => .ok (elsePtr, endPtr, { s with cache })
  | _ => .error (.abort .leb)

section Step

variable (m : Module) (num : Numerics) (ans : Answer) (f : FunctionInstance)

/-- The instruction with this opcode, whose immediates begin at `ip`. -/
def exec (op : Opcode) (ip : Nat) (s : Interp) : Except Stop Interp :=
  match op with
  | .unreachable => .error (.trap .unreachable)
  | .nop => s.setIp ip
  | .select => do (← s.setIp ip).selectOp 1
  | .select64 => do (← s.setIp ip).selectOp 2
  | .block => do
    let cellNum ← blockCells f.code ip
    let (_, endPtr, s) ← s.findBlock f.code (ip + 1)
    (← s.setIp (ip + 1)).blockPush endPtr cellNum .block
  | .loop => do
    let cellNum ← blockCells f.code ip
    (← s.setIp (ip + 1)).blockPush (ip + 1) cellNum .loop
  | .br => do
    let (depth, _) ← readU32 f.code ip
    s.branch depth
  | .brIf => do
    let (depth, ip) ← readU32 f.code ip
    let (cond, s) ← s.valuePop32
    if cond ≠ 0 then s.branch depth else s.setIp ip
  | .brTable => do
    let (count, ip) ← readU32 f.code ip
    let (idx, s) ← s.valuePop32
    let ip ← skipLabels f.code (min count idx.toNat) ip
    let (depth, _) ← readU32 f.code ip
    s.branch depth
  | .drop => do
    let (_, s) ← s.valuePop 1
    s.setIp ip
  | .drop64 => do
    let (_, s) ← s.valuePop 2
    s.setIp ip
  | .if => do
    let cellNum ← blockCells f.code ip
    let (cond, s) ← s.valuePop32
    let (elsePtr, endPtr, s) ← s.findBlock f.code (ip + 1)
    if cond ≠ 0 then (← s.setIp (ip + 1)).blockPush endPtr cellNum .if
    else match elsePtr with
      | none => s.setIp (endPtr + 1)
      | some elsePtr => (← s.setIp (elsePtr + 1)).blockPush endPtr cellNum .if
  | .else => do
    let frame ← s.frame
    match frame.ctrl with
    | [] => .error (.abort .controlStack)
    | block :: _ => s.setIp block.targetAddr
  | .getGlobal64 => do
    let (idx, ip) ← readU32 f.code ip
    (← s.setIp ip).valuePush (s.globalCells idx)
  | .setGlobal64 => do
    let (idx, ip) ← readU32 f.code ip
    let (values, s) ← s.valuePop 2
    (s.setGlobalCells idx values).setIp ip
  | .getLocal => do
    let (idx, ip) ← readU32 f.code ip
    let (n, addr) ← s.localAt f idx
    (← s.setIp ip).valuePush (← s.valueGet addr n)
  | .setLocal => do
    let (idx, ip) ← readU32 f.code ip
    let (n, addr) ← s.localAt f idx
    let (values, s) ← s.valuePop n
    (← s.valueSet addr values).setIp ip
  | .teeLocal => do
    let (idx, ip) ← readU32 f.code ip
    let (n, addr) ← s.localAt f idx
    let (values, _) ← s.valuePop n
    (← s.valueSet addr values).setIp ip
  | .getGlobal => do
    let (idx, ip) ← readU32 f.code ip
    match m.globalTypes[idx]? with
    | none => .error (.abort .code)
    | some t => (← s.setIp ip).valuePush ((s.globalCells idx).take t.cellNum)
  | .setGlobal => do
    let (idx, ip) ← readU32 f.code ip
    match m.globalTypes[idx]? with
    | none => .error (.abort .code)
    | some t => do
      let (values, s) ← s.valuePop t.cellNum
      (s.setGlobalCells idx values).setIp ip
  | .f32Const =>
    do (← s.setIp (ip + 4)).valuePush (toCells 1 (readBytes (fun i => f.code.getD i 0) ip 4))
  | .f64Const =>
    do (← s.setIp (ip + 8)).valuePush (toCells 2 (readBytes (fun i => f.code.getD i 0) ip 8))
  | .i32Const =>
    match readSafeLEBNumber .int32 (f.code.drop ip) with
    | none => .error (.abort .code)
    | some (v, n) => do (← s.setIp (ip + n)).valuePush (toCells 1 v.toNat)
  | .i64Const =>
    match readSafeLEBNumber .int64 (f.code.drop ip) with
    | none => .error (.abort .code)
    | some (v, n) => do (← s.setIp (ip + n)).valuePush (toCells 2 v.toNat)
  | .memoryGrow => do
    let (_, ip) ← readU32 f.code ip
    (← s.setIp ip).memoryGrow ans
  | .memorySize => do
    let (_, ip) ← readU32 f.code ip
    let mem ← s.memory
    (← s.setIp ip).valuePush [UInt32.ofNat mem.curPages]
  | .store op => do
    let (_, ip) ← readU32 f.code ip
    let (offset, ip) ← readU32 f.code ip
    (← s.setIp ip).storeOp op offset
  | .load op => do
    let (_, ip) ← readU32 f.code ip
    let (offset, ip) ← readU32 f.code ip
    (← s.setIp ip).loadOp op offset
  | .numeric op => do (← s.setIp ip).numericOp num op
  | .return => s.returnFrame f
  | .call => do
    let (idx, ip) ← readU32 f.code ip
    let s ← s.setIp ip
    if m.gasFuncIdx = some idx then s.chargeGas
    else match m.functions[idx]? with
      | none => .error (.abort .code)
      | some callee => s.callFuncInst idx callee ans
  | .callIndirect => do
    let (typeIdx, ip) ← readU32 f.code ip
    let s ← s.setIp (ip + 1)
    let (idx, s) ← s.valuePop32
    match m.types[typeIdx]? with
    | none => .error (.abort .code)
    | some expected =>
      if idx.toNat ≥ 2 ^ 31 then .error (.trap .undefinedElement)
      else match m.elements[idx.toNat]? with
        | none => .error (.trap .undefinedElement)
        | some funcIdx =>
          if funcIdx = 0xffffffff then .error (.trap .uninitializedElement)
          else match m.functions[funcIdx.toNat]? with
            | none => .error (.abort .code)
            | some callee =>
              if callee.type ≠ expected then .error (.trap .indirectCallTypeMismatch)
              else s.callFuncInst funcIdx.toNat callee ans
  | .end => do
    let frame ← s.frame
    let s ← s.setIp ip
    if frame.ctrl.length > 1 then s.blockPop else s.returnFrame f

def step (s : Interp) : Except Stop Interp := do
  let frame ← s.frame
  match m.functions[frame.funcIdx]? with
  | none => .error (.abort .code)
  | some f =>
    match f.code[frame.ip]? with
    | none => .error .finished
    | some b =>
      match Opcode.ofByte b with
      | none => .error (.abort .code)
      | some op => s.exec m num ans f op (frame.ip + 1)

end Step

theorem frame_eq_ok {s : Interp} {frame : InterpFrame} : s.frame = .ok frame ↔ s.frames.head? = some frame := by
  rw [Interp.frame]
  cases s.frames with
  | nil => exact ⟨nofun, nofun⟩
  | cons f outer => exact ⟨fun h => congrArg some (Except.ok.inj h), fun h => congrArg Except.ok (Option.some.inj h)⟩

theorem step_eq_exec {m : Module} {s : Interp} {frame : InterpFrame} {f : FunctionInstance} {b : UInt8}
    {op : Opcode} (now : s.frame = .ok frame) (func : m.functions[frame.funcIdx]? = some f)
    (byte : f.code[frame.ip]? = some b) (opcode : Opcode.ofByte b = some op) (num : Numerics) (ans : Answer) :
    s.step m num ans = s.exec m num ans f op (frame.ip + 1) := by
  rw [step, now]
  show (match m.functions[frame.funcIdx]? with | none => _ | some f => _) = _
  rw [func]
  show (match f.code[frame.ip]? with | none => _ | some b => _) = _
  rw [byte]
  show (match Opcode.ofByte b with | none => _ | some op => _) = _
  rw [opcode]

end Interp

/-- The interpreter for a call of a function: its arguments are at the bottom of the stack. `none` when there
is no frame for it. -/
def Interp.enter (f : FunctionInstance) (funcIdx : Nat) (args : List UInt32) (inst : Instance) :
    Option Interp := do
  let s ← Interp.allocFrame funcIdx f 0
    ⟨[], writeCells (fun _ => 0) 0 args, 4 * f.numParamCells, (inst.memory.map (·.memSize)).getD 0,
      fun _ => none, inst⟩
  (s.pushFunctionLabel f).toOption

/-- The runs of the interpreter on a module, from the call of a function. -/
def interpreter (m : Module) (num : Numerics) (init : Interp) : System Interp Answer where
  init := init
  step s ans := (s.step m num ans).toOption

end Dtvm.Wasm
