import Mathlib.Algebra.Order.Ring.Int

/-!
# Types and opcodes of WebAssembly

As `common/type.h`, `common/enums.h` and the tables under `common/wasm_defs` have them.
-/

namespace Dtvm.Wasm

inductive ValType where
  | i32 | i64 | f32 | f64
deriving DecidableEq, Repr

inductive WASMType where
  | val (t : ValType)
  | any
deriving DecidableEq, Repr

namespace ValType

/-- `getWASMTypeSize`. -/
def size : ValType → Nat
  | .i32 | .f32 => 4
  | .i64 | .f64 => 8

/-- `getWASMTypeCellNum`. -/
def cellNum : ValType → Nat
  | .i32 | .f32 => 1
  | .i64 | .f64 => 2

end ValType

/-- `getWASMTypeSize`. -/
def WASMType.size : WASMType → Nat
  | .val t => t.size
  | .any => 4

/-- The type of a block; `none` is `VOID`. -/
abbrev BlockType := Option ValType

/-- `getWASMTypeCellNum` of a block type. -/
def BlockType.cellNum : BlockType → Nat
  | none => 0
  | some t => t.cellNum

/-- `getWASMBlockTypeFromOpcode`; `none` is `ERROR_TYPE`. -/
def blockTypeFromOpcode (b : UInt8) : Option BlockType :=
  if b = 0x7f then some (some .i32)
  else if b = 0x7e then some (some .i64)
  else if b = 0x7d then some (some .f32)
  else if b = 0x7c then some (some .f64)
  else if b = 0x40 then some none
  else none

/-- A function type. The module loader admits one result at most. -/
structure TypeEntry where
  params : List ValType
  result : Option ValType
deriving DecidableEq, Repr

def numCells (ts : List ValType) : Nat := (ts.map ValType.cellNum).sum

inductive LabelType where
  | block | loop | «if» | function
deriving DecidableEq, Repr

/-! ## Loads and stores -/

inductive LoadOp where
  | i32Load | i64Load | f32Load | f64Load | i32Load8S | i32Load8U | i32Load16S | i32Load16U
  | i64Load8S | i64Load8U | i64Load16S | i64Load16U | i64Load32S | i64Load32U
deriving DecidableEq, Repr

inductive StoreOp where
  | i32Store | i64Store | f32Store | f64Store | i32Store8 | i32Store16 | i64Store8 | i64Store16
  | i64Store32
deriving DecidableEq, Repr

namespace LoadOp

/-- In the order of their opcodes, from `0x28` on. -/
def all : List LoadOp :=
  [.i32Load, .i64Load, .f32Load, .f64Load, .i32Load8S, .i32Load8U, .i32Load16S, .i32Load16U, .i64Load8S,
   .i64Load8U, .i64Load16S, .i64Load16U, .i64Load32S, .i64Load32U]

def result : LoadOp → ValType
  | .i32Load | .i32Load8S | .i32Load8U | .i32Load16S | .i32Load16U => .i32
  | .i64Load | .i64Load8S | .i64Load8U | .i64Load16S | .i64Load16U | .i64Load32S | .i64Load32U => .i64
  | .f32Load => .f32
  | .f64Load => .f64

/-- The entry of `Aligns`. -/
def align : LoadOp → Nat
  | .i32Load | .f32Load | .i64Load32S | .i64Load32U => 2
  | .i64Load | .f64Load => 3
  | .i32Load8S | .i32Load8U | .i64Load8S | .i64Load8U => 0
  | .i32Load16S | .i32Load16U | .i64Load16S | .i64Load16U => 1

end LoadOp

namespace StoreOp

/-- In the order of their opcodes, from `0x36` on. -/
def all : List StoreOp :=
  [.i32Store, .i64Store, .f32Store, .f64Store, .i32Store8, .i32Store16, .i64Store8, .i64Store16, .i64Store32]

def operand : StoreOp → ValType
  | .i32Store | .i32Store8 | .i32Store16 => .i32
  | .i64Store | .i64Store8 | .i64Store16 | .i64Store32 => .i64
  | .f32Store => .f32
  | .f64Store => .f64

/-- The entry of `Aligns`. -/
def align : StoreOp → Nat
  | .i32Store | .f32Store | .i64Store32 => 2
  | .i64Store | .f64Store => 3
  | .i32Store8 | .i64Store8 => 0
  | .i32Store16 | .i64Store16 => 1

end StoreOp

/-! ## Numeric operators -/

inductive NumericOp where
  | i32Eqz | i32Eq | i32Ne | i32LtS | i32LtU | i32GtS | i32GtU | i32LeS | i32LeU | i32GeS | i32GeU
  | i64Eqz | i64Eq | i64Ne | i64LtS | i64LtU | i64GtS | i64GtU | i64LeS | i64LeU | i64GeS | i64GeU
  | f32Eq | f32Ne | f32Lt | f32Gt | f32Le | f32Ge | f64Eq | f64Ne | f64Lt | f64Gt | f64Le | f64Ge
  | i32Clz | i32Ctz | i32Popcnt | i32Add | i32Sub | i32Mul | i32DivS | i32DivU | i32RemS | i32RemU
  | i32And | i32Or | i32Xor | i32Shl | i32ShrS | i32ShrU | i32Rotl | i32Rotr | i64Clz | i64Ctz
  | i64Popcnt | i64Add | i64Sub | i64Mul | i64DivS | i64DivU | i64RemS | i64RemU | i64And | i64Or
  | i64Xor | i64Shl | i64ShrS | i64ShrU | i64Rotl | i64Rotr | f32Abs | f32Neg | f32Ceil | f32Floor
  | f32Trunc | f32Nearest | f32Sqrt | f32Add | f32Sub | f32Mul | f32Div | f32Min | f32Max
  | f32Copysign | f64Abs | f64Neg | f64Ceil | f64Floor | f64Trunc | f64Nearest | f64Sqrt | f64Add
  | f64Sub | f64Mul | f64Div | f64Min | f64Max | f64Copysign | i32WrapI64 | i32TruncSF32
  | i32TruncUF32 | i32TruncSF64 | i32TruncUF64 | i64ExtendSI32 | i64ExtendUI32 | i64TruncSF32
  | i64TruncUF32 | i64TruncSF64 | i64TruncUF64 | f32ConvertSI32 | f32ConvertUI32 | f32ConvertSI64
  | f32ConvertUI64 | f32DemoteF64 | f64ConvertSI32 | f64ConvertUI32 | f64ConvertSI64
  | f64ConvertUI64 | f64PromoteF32 | i32ReinterpretF32 | i64ReinterpretF64 | f32ReinterpretI32
  | f64ReinterpretI64 | i32Extend8S | i32Extend16S | i64Extend8S | i64Extend16S | i64Extend32S
deriving DecidableEq, Repr

namespace NumericOp

/-- In the order of their opcodes, from `0x45` on. -/
def all : List NumericOp :=
  [.i32Eqz, .i32Eq, .i32Ne, .i32LtS, .i32LtU, .i32GtS, .i32GtU, .i32LeS, .i32LeU, .i32GeS, .i32GeU,
   .i64Eqz, .i64Eq, .i64Ne, .i64LtS, .i64LtU, .i64GtS, .i64GtU, .i64LeS, .i64LeU, .i64GeS, .i64GeU,
   .f32Eq, .f32Ne, .f32Lt, .f32Gt, .f32Le, .f32Ge, .f64Eq, .f64Ne, .f64Lt, .f64Gt, .f64Le, .f64Ge,
   .i32Clz, .i32Ctz, .i32Popcnt, .i32Add, .i32Sub, .i32Mul, .i32DivS, .i32DivU, .i32RemS, .i32RemU,
   .i32And, .i32Or, .i32Xor, .i32Shl, .i32ShrS, .i32ShrU, .i32Rotl, .i32Rotr, .i64Clz, .i64Ctz,
   .i64Popcnt, .i64Add, .i64Sub, .i64Mul, .i64DivS, .i64DivU, .i64RemS, .i64RemU, .i64And, .i64Or,
   .i64Xor, .i64Shl, .i64ShrS, .i64ShrU, .i64Rotl, .i64Rotr, .f32Abs, .f32Neg, .f32Ceil, .f32Floor,
   .f32Trunc, .f32Nearest, .f32Sqrt, .f32Add, .f32Sub, .f32Mul, .f32Div, .f32Min, .f32Max, .f32Copysign,
   .f64Abs, .f64Neg, .f64Ceil, .f64Floor, .f64Trunc, .f64Nearest, .f64Sqrt, .f64Add, .f64Sub, .f64Mul,
   .f64Div, .f64Min, .f64Max, .f64Copysign, .i32WrapI64, .i32TruncSF32, .i32TruncUF32, .i32TruncSF64,
   .i32TruncUF64, .i64ExtendSI32, .i64ExtendUI32, .i64TruncSF32, .i64TruncUF32, .i64TruncSF64,
   .i64TruncUF64, .f32ConvertSI32, .f32ConvertUI32, .f32ConvertSI64, .f32ConvertUI64, .f32DemoteF64,
   .f64ConvertSI32, .f64ConvertUI32, .f64ConvertSI64, .f64ConvertUI64, .f64PromoteF32,
   .i32ReinterpretF32, .i64ReinterpretF64, .f32ReinterpretI32, .f64ReinterpretI64, .i32Extend8S,
   .i32Extend16S, .i64Extend8S, .i64Extend16S, .i64Extend32S]

/-- The arguments of `popAndPushValueType` in the function loader. -/
structure Signature where
  numPops : Nat
  popped : ValType
  pushed : ValType
deriving DecidableEq, Repr

def signature : NumericOp → Signature
  | .i32Eqz | .i32Clz | .i32Ctz | .i32Popcnt | .i32Extend8S | .i32Extend16S => ⟨1, .i32, .i32⟩
  | .i32Eq | .i32Ne | .i32LtS | .i32LtU | .i32GtS | .i32GtU | .i32LeS | .i32LeU | .i32GeS | .i32GeU
  | .i32Add | .i32Sub | .i32Mul | .i32DivS | .i32DivU | .i32RemS | .i32RemU | .i32And | .i32Or | .i32Xor
  | .i32Shl | .i32ShrS | .i32ShrU | .i32Rotl | .i32Rotr => ⟨2, .i32, .i32⟩
  | .i64Eqz | .i32WrapI64 => ⟨1, .i64, .i32⟩
  | .i64Eq | .i64Ne | .i64LtS | .i64LtU | .i64GtS | .i64GtU | .i64LeS | .i64LeU | .i64GeS | .i64GeU
  => ⟨2, .i64, .i32⟩
  | .f32Eq | .f32Ne | .f32Lt | .f32Gt | .f32Le | .f32Ge => ⟨2, .f32, .i32⟩
  | .f64Eq | .f64Ne | .f64Lt | .f64Gt | .f64Le | .f64Ge => ⟨2, .f64, .i32⟩
  | .i64Clz | .i64Ctz | .i64Popcnt | .i64Extend8S | .i64Extend16S | .i64Extend32S => ⟨1, .i64, .i64⟩
  | .i64Add | .i64Sub | .i64Mul | .i64DivS | .i64DivU | .i64RemS | .i64RemU | .i64And | .i64Or | .i64Xor
  | .i64Shl | .i64ShrS | .i64ShrU | .i64Rotl | .i64Rotr => ⟨2, .i64, .i64⟩
  | .f32Abs | .f32Neg | .f32Ceil | .f32Floor | .f32Trunc | .f32Nearest | .f32Sqrt => ⟨1, .f32, .f32⟩
  | .f32Add | .f32Sub | .f32Mul | .f32Div | .f32Min | .f32Max | .f32Copysign => ⟨2, .f32, .f32⟩
  | .f64Abs | .f64Neg | .f64Ceil | .f64Floor | .f64Trunc | .f64Nearest | .f64Sqrt => ⟨1, .f64, .f64⟩
  | .f64Add | .f64Sub | .f64Mul | .f64Div | .f64Min | .f64Max | .f64Copysign => ⟨2, .f64, .f64⟩
  | .i32TruncSF32 | .i32TruncUF32 | .i32ReinterpretF32 => ⟨1, .f32, .i32⟩
  | .i32TruncSF64 | .i32TruncUF64 => ⟨1, .f64, .i32⟩
  | .i64ExtendSI32 | .i64ExtendUI32 => ⟨1, .i32, .i64⟩
  | .i64TruncSF32 | .i64TruncUF32 => ⟨1, .f32, .i64⟩
  | .i64TruncSF64 | .i64TruncUF64 | .i64ReinterpretF64 => ⟨1, .f64, .i64⟩
  | .f32ConvertSI32 | .f32ConvertUI32 | .f32ReinterpretI32 => ⟨1, .i32, .f32⟩
  | .f32ConvertSI64 | .f32ConvertUI64 => ⟨1, .i64, .f32⟩
  | .f32DemoteF64 => ⟨1, .f64, .f32⟩
  | .f64ConvertSI32 | .f64ConvertUI32 => ⟨1, .i32, .f64⟩
  | .f64ConvertSI64 | .f64ConvertUI64 | .f64ReinterpretI64 => ⟨1, .i64, .f64⟩
  | .f64PromoteF32 => ⟨1, .f32, .f64⟩

end NumericOp

/-! ## Opcodes -/

inductive Opcode where
  | unreachable | nop | block | loop | «if» | «else» | «end» | br | brIf | brTable | «return» | call
  | callIndirect | drop | select | getGlobal64 | setGlobal64 | getLocal | setLocal | teeLocal | getGlobal
  | setGlobal | load (op : LoadOp) | store (op : StoreOp) | memorySize | memoryGrow | i32Const | i64Const
  | f32Const | f64Const | numeric (op : NumericOp) | drop64 | select64
deriving DecidableEq, Repr

/-- The opcodes without those of loads, stores and numeric operators. -/
def Opcode.plain : List (Nat × Opcode) :=
  [(0x00, .unreachable), (0x01, .nop), (0x02, .block), (0x03, .loop), (0x04, .if), (0x05, .else),
   (0x0b, .end), (0x0c, .br), (0x0d, .brIf), (0x0e, .brTable), (0x0f, .return), (0x10, .call),
   (0x11, .callIndirect), (0x1a, .drop), (0x1b, .select), (0x1d, .getGlobal64), (0x1e, .setGlobal64),
   (0x20, .getLocal), (0x21, .setLocal), (0x22, .teeLocal), (0x23, .getGlobal), (0x24, .setGlobal),
   (0x3f, .memorySize), (0x40, .memoryGrow), (0x41, .i32Const), (0x42, .i64Const), (0x43, .f32Const),
   (0x44, .f64Const), (0xc5, .drop64), (0xc6, .select64)]

def Opcode.ofByte (b : UInt8) : Option Opcode :=
  match Opcode.plain.lookup b.toNat with
  | some op => some op
  | none =>
    if b.toNat < 0x28 then none
    else if b.toNat < 0x36 then LoadOp.all[b.toNat - 0x28]?.map .load
    else if b.toNat < 0x3f then StoreOp.all[b.toNat - 0x36]?.map .store
    else if b.toNat < 0x45 then none
    else NumericOp.all[b.toNat - 0x45]?.map .numeric

end Dtvm.Wasm
