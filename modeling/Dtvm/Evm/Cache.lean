import Dtvm.Evm.Opcode

/-!
# The bytecode cache

`evm_cache.cpp`: what is computed of a contract's code once. The jump destinations and the `PUSH` immediates come
from one left-to-right decoding (`buildJumpDestMapAndPushCache`), the gas chunks from `buildGasBlocks`. The tables
are written here from the blocks alone; `Dtvm.Evm.ChunkTables` has the control-flow graph between the two.

The instruction tables are EVMC's: a table is a parameter, with what EVMC documents of it as fields.
-/

namespace Dtvm

/-- `evmc_get_instruction_metrics_table` and `evmc_get_instruction_names_table`: the base gas of
each opcode as a 16-bit signed number, and whether the revision has the opcode at all. -/
structure InstructionTables where
  gasCost : Revision → UInt8 → BitVec 16
  defined : Revision → UInt8 → Bool
  /-- `STOP` is free in every revision. -/
  stop_free : ∀ rev, gasCost rev 0x00 = 0
  /-- An opcode of the revision has a cost; only the others may hold a negative marker. -/
  cost_nonneg : ∀ rev b, defined rev b = true → 0 ≤ (gasCost rev b).toInt
  /-- EIP-3855: `PUSH0` came with Shanghai. -/
  push0_shanghai : ∀ rev, defined rev 0x5f = true → .shanghai ≤ rev

/-- A cost as the source uses it: converted to an unsigned 64-bit number. -/
def InstructionTables.cost64 (t : InstructionTables) (rev : Revision) (b : UInt8) : Nat :=
  ((t.gasCost rev b).toInt % 2 ^ 64).toNat

/-- A contract's code. The cache keeps offsets into it, and the end of a `PUSH` whose immediate
runs past it, in 32 bits. -/
@[ext] structure Bytecode where
  bytes : Bytes
  fits : bytes.length + 33 ≤ 2 ^ 32

/-- `EVMBytecodeCache`, with each table as a function of the program counter. -/
structure BytecodeCache where
  maps : DecodeMaps
  gasChunkEnd : Nat → Nat
  gasChunkCost : Nat → Nat

def byteAt (code : Bytes) (pc : Nat) : UInt8 := code.getD pc 0

def opAt (code : Bytes) (pc : Nat) : Opcode := .ofByte (byteAt code pc)

namespace Cache

/-! ## Jump destinations and immediates -/

/-- `loadPushValue`: the immediate of a `PUSH`, zero-padded if the code ends early. -/
def loadPushValue (code : Bytes) (pc numBytes : Nat) : Word :=
  let available := (code.drop (pc + 1)).take numBytes
  Word.load available <<< ((numBytes - available.length) * 8)

/-- The loop of `buildJumpDestMapAndPushCache`; one unit of fuel for each byte is enough. -/
def decodeLoop (code : Bytes) : Nat → Nat → List Bool × List Word → List Bool × List Word
  | 0, _, tables => tables
  | fuel + 1, pc, (jumpDest, pushValue) =>
    if pc < code.length then
      match opAt code pc with
      | .jumpdest => decodeLoop code fuel (pc + 1) (jumpDest.set pc true, pushValue)
      | .push n =>
        decodeLoop code fuel (pc + 1 + n) (jumpDest, pushValue.set pc (loadPushValue code pc n))
      | _ => decodeLoop code fuel (pc + 1) (jumpDest, pushValue)
    else (jumpDest, pushValue)

def buildJumpDestMapAndPushCache (code : Bytes) : DecodeMaps :=
  let n := code.length
  let tables := decodeLoop code n 0 (List.replicate n false, List.replicate n 0)
  { jumpDest := fun pc => tables.1.getD pc false, pushValue := fun pc => tables.2.getD pc 0 }

/-! ## Gas blocks -/

/-- `GasBlock`, without the edges. -/
structure GasBlock where
  start : Nat := 0
  stop : Nat := 0
  lastPc : Nat := 0
  prevPc : Nat := 2 ^ 32 - 1
  lastOpcode : UInt8 := 0
  prevOpcode : UInt8 := 0
  cost : Nat := 0
deriving DecidableEq, Repr

/-- The first loop of `buildGasBlocks`: a block starts at a `JUMPDEST` and after a terminator. -/
def markStarts (code : Bytes) : Nat → Nat → List Bool → List Bool
  | 0, _, starts => starts
  | fuel + 1, pc, starts =>
    if pc < code.length then
      let o := opAt code pc
      let starts := if o = .jumpdest then starts.set pc true else starts
      let starts := if o.isGasChunkTerminator then starts.set (pc + o.len) true else starts
      markStarts code fuel (pc + o.len) starts
    else starts

section Blocks

variable (code : Bytes) (cost : UInt8 → Nat) (starts : List Bool)

/-- The inner loop of `buildGasBlocks`: take opcodes into the block up to the next block start or
through a terminator. Answers where it stopped and the block. -/
def blockLoop (start : Nat) : Nat → Nat → GasBlock → Nat × GasBlock
  | 0, pc, block => (pc, block)
  | fuel + 1, pc, block =>
    if pc < code.length then
      if pc ≠ start ∧ starts.getD pc false then (pc, block)
      else
        let b := byteAt code pc
        let block := { block with
          prevPc := block.lastPc, prevOpcode := block.lastOpcode
          lastPc := pc % 2 ^ 32, lastOpcode := b
          cost := (block.cost + cost b) % 2 ^ 64 }
        if (opAt code pc).isGasChunkTerminator then (pc + (opAt code pc).len, block)
        else blockLoop start fuel (pc + (opAt code pc).len) block
    else (pc, block)

/-- The outer loop of `buildGasBlocks`. -/
def blocksLoop : Nat → Nat → List GasBlock → List GasBlock
  | 0, _, blocks => blocks
  | fuel + 1, pc, blocks =>
    if pc < code.length then
      if starts.getD pc false = false then blocksLoop fuel (pc + 1) blocks
      else
        let start := pc % 2 ^ 32
        if start ≥ code.length then blocks
        else
          let (stop, block) := blockLoop code cost starts start code.length pc { start := start }
          blocksLoop fuel stop (blocks ++ [{ block with stop := stop % 2 ^ 32 }])
    else blocks

end Blocks

def buildGasBlocks (code : Bytes) (cost : UInt8 → Nat) : List GasBlock :=
  let n := code.length
  let starts := markStarts code n 0 ((List.replicate n false).set 0 true)
  blocksLoop code cost starts n 0 []

/-- The writing of `GasChunkEnd` and `GasChunkCost` in `buildGasChunksSPP`. -/
def writeChunk (tables : List (Nat × Nat)) (block : GasBlock) : List (Nat × Nat) :=
  if block.start = block.stop then tables else tables.set block.start (block.stop, block.cost)

/-- The chunk tables: end and cost at each program counter, zero where no chunk starts. -/
def gasChunks (code : Bytes) (cost : UInt8 → Nat) : List (Nat × Nat) :=
  (buildGasBlocks code cost).foldl writeChunk (List.replicate code.length (0, 0))

end Cache

def buildBytecodeCache (t : InstructionTables) (rev : Revision) (code : Bytecode) :
    BytecodeCache where
  maps := Cache.buildJumpDestMapAndPushCache code.bytes
  gasChunkEnd pc := ((Cache.gasChunks code.bytes (t.cost64 rev)).getD pc (0, 0)).1
  gasChunkCost pc := ((Cache.gasChunks code.bytes (t.cost64 rev)).getD pc (0, 0)).2

end Dtvm
