import Dtvm.Wasm.Leb
import Dtvm.Wasm.Opcode
import Mathlib.Logic.Function.Basic

/-!
# Looking for the end of a block

`findBlockAddr` of the interpreter and `skipCurrentBlock` of the compilers step over the instructions of a
block without decoding them. Each has its own switch over the opcodes, with its own choice of readers for
the immediates.
-/

namespace Dtvm.Wasm

def skips : List IntType → List UInt8 → Option Nat
  | [], _ => some 0
  | t :: ts, bytes => do
    let n ← skipLEBNumber t bytes
    let m ← skips ts (bytes.drop n)
    some (n + m)

/-! ## `findBlockAddr` -/

/-- Addresses of the `else` and the `end` of a block. -/
structure CacheValue where
  elsePtr : Option Nat
  endPtr : Option Nat
deriving DecidableEq, Repr

/-- `BlockAddrCache`, by function and start of a block. -/
abbrev BlockAddrCache := Nat × Nat → Option CacheValue

def BlockAddrCache.entry (cache : BlockAddrCache) (key : Nat × Nat) : CacheValue := (cache key).getD ⟨none, none⟩

/-- How many bytes of immediates `findBlockAddr` steps over; `none` when it aborts. -/
def findImmediates (op : Opcode) (bytes : List UInt8) : Option Nat :=
  match op with
  | .unreachable | .nop | .else | .end | .drop | .drop64 | .select | .select64 | .numeric _ | .return => some 0
  | .block | .loop | .if => do
    -- `skipBlockType`
    let _ ← blockTypeFromOpcode (← bytes.head?)
    some 1
  | .br | .brIf => skipLEBNumber .int32 bytes
  | .brTable => do
    let (numTargets, n) ← readSafeLEBNumber .uint32 bytes
    let m ← skips (List.replicate (numTargets.toNat + 1) .uint32) (bytes.drop n)
    some (n + m)
  | .getGlobal64 | .setGlobal64 | .getLocal | .setLocal | .teeLocal | .getGlobal | .setGlobal =>
    skipLEBNumber .uint32 bytes
  | .i32Const => skipLEBNumber .int32 bytes
  | .i64Const => skipLEBNumber .int64 bytes
  | .f32Const => some 4
  | .f64Const => some 8
  | .load _ | .store _ => skips [.uint32, .uint32] bytes
  | .memorySize | .memoryGrow => skipLEBNumber .uint32 bytes
  | .call => skipLEBNumber .uint32 bytes
  | .callIndirect => do
    let n ← skipLEBNumber .uint32 bytes
    some (n + 1)

/-- The loop variables of `findBlockAddr`. -/
structure Find where
  ptr : Nat
  blockDepth : Nat
  blockStartPtrs : Nat → Nat
  cache : BlockAddrCache

section Find

variable (func : Nat) (code : List UInt8)

def Find.key (s : Find) : Nat × Nat := (func, s.blockStartPtrs (s.blockDepth - 1))

/-- What the loop does at an opcode, before it goes on behind the immediates. -/
def Find.visit (op : Opcode) (next : Nat) (s : Find) : Find :=
  match op with
  | .block | .loop | .if =>
    { s with
      ptr := next
      blockStartPtrs := Function.update s.blockStartPtrs s.blockDepth next
      blockDepth := s.blockDepth + 1 }
  | .else =>
    { s with
      ptr := next
      cache := Function.update s.cache (s.key func)
        (some { s.cache.entry (s.key func) with elsePtr := some s.ptr }) }
  | .end =>
    { s with
      ptr := next
      blockDepth := s.blockDepth - 1
      cache := Function.update s.cache (s.key func)
        (some { s.cache.entry (s.key func) with endPtr := some s.ptr }) }
  | _ => { s with ptr := next }

/-- A turn of the loop; `none` when it aborts. -/
def Find.step (s : Find) : Option Find := do
  let op ← Opcode.ofByte (← code[s.ptr]?)
  let n ← findImmediates op (code.drop (s.ptr + 1))
  some (s.visit func op (s.ptr + 1 + n))

def Find.loop : Nat → Find → Option Find
  | 0, s => some s
  | fuel + 1, s =>
    if s.ptr < code.length ∧ s.blockDepth ≠ 0 then do
      let s ← s.step func code
      loop fuel s
    else some s

/-- `findBlockAddr`: the addresses, and the cache. `none` when it aborts or finds no end. -/
def findBlockAddr (start : Nat) (cache : BlockAddrCache) : Option (CacheValue × BlockAddrCache) :=
  match cache (func, start) with
  | some value => some (value, cache)
  | none => do
    let s ← Find.loop func code code.length ⟨start, 1, fun _ => start, cache⟩
    if s.blockDepth ≠ 0 then none
    else some (s.cache.entry (func, s.blockStartPtrs 0), s.cache)

end Find

/-! ## `skipCurrentBlock` -/

/-- How many bytes of immediates `skipCurrentBlock` steps over. -/
def skipImmediates (op : Opcode) (bytes : List UInt8) : Option Nat :=
  match op with
  | .unreachable | .nop | .else | .end | .return | .drop | .drop64 | .select | .select64 | .numeric _ => some 0
  | .block | .loop | .if => some 1
  | .br | .brIf => skipLEBNumber .uint32 bytes
  | .brTable => do
    let (numTargets, n) ← (readLEBNumber .uint32 bytes).toOption
    let m ← skips (List.replicate (numTargets.toNat + 1) .uint32) (bytes.drop n)
    some (n + m)
  | .call => skipLEBNumber .uint32 bytes
  | .callIndirect => do
    let n ← skipLEBNumber .uint32 bytes
    some (n + 1)
  | .getLocal | .setLocal | .teeLocal | .getGlobal | .setGlobal | .getGlobal64 | .setGlobal64 =>
    skipLEBNumber .uint32 bytes
  | .load _ | .store _ => skips [.uint32, .uint32] bytes
  | .memorySize | .memoryGrow => skipLEBNumber .uint32 bytes
  | .i32Const => skipLEBNumber .uint32 bytes
  | .i64Const => skipLEBNumber .uint64 bytes
  | .f32Const => some 4
  | .f64Const => some 8

/-- The result of `skipCurrentBlock`. -/
inductive Skipped where
  | found (addr : Nat)
  | notFound
  | aborted
deriving DecidableEq, Repr

/-- The loop of `skipCurrentBlock`. A byte that is no opcode is stepped over. -/
def skipLoopFrom (code : List UInt8) : Nat → Nat → Nat → Skipped
  | 0, _, _ => .notFound
  | fuel + 1, ip, nestedLevel =>
    match code[ip]? with
    | none => .notFound
    | some b =>
      match Opcode.ofByte b with
      | none => skipLoopFrom code fuel (ip + 1) nestedLevel
      | some op =>
        if (op = .else ∨ op = .end) ∧ nestedLevel = 0 then .found ip
        else match skipImmediates op (code.drop (ip + 1)) with
          | none => .aborted
          | some n =>
            let nestedLevel :=
              if op = .block ∨ op = .loop ∨ op = .if then nestedLevel + 1
              else if op = .end then nestedLevel - 1
              else nestedLevel
            skipLoopFrom code fuel (ip + 1 + n) nestedLevel

def skipCurrentBlock (code : List UInt8) (ip : Nat) : Skipped := skipLoopFrom code code.length ip 0

end Dtvm.Wasm
