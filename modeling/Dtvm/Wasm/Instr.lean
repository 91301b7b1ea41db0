import Dtvm.Wasm.FunctionLoader

/-!
# Decoded instructions

The function loader reads the immediates of an instruction and checks types in one go. Here the two are
apart: `decode` reads an instruction, and `Instr.check` does what the loader does to its types for it. A turn
of the loader's loop is the one after the other (`FunctionLoader.step_eq`).
-/

namespace Dtvm.Wasm

open Effect

/-- An instruction with its immediates. The labels of `br_table` end with the default one. The loader knows
a wide `drop` or `select` by the type of its operand only. -/
inductive Instr where
  | unreachable
  | nop
  | block (t : BlockType)
  | loop (t : BlockType)
  | «if» (t : BlockType)
  | «else»
  | «end»
  | br (depth : Nat)
  | brIf (depth : Nat)
  | brTable (depths : List Nat)
  | «return»
  | call (idx : Nat)
  | callIndirect (idx : Nat)
  | drop (wide : Bool)
  | select (wide : Bool)
  | getLocal (idx : Nat)
  | setLocal (idx : Nat)
  | teeLocal (idx : Nat)
  | getGlobal (idx : Nat)
  | setGlobal (idx : Nat)
  | load (op : LoadOp) (align offset : Nat)
  | store (op : StoreOp) (align offset : Nat)
  | memorySize
  | memoryGrow
  | i32Const (v : BitVec 32)
  | i64Const (v : BitVec 64)
  | f32Const (bytes : List UInt8)
  | f64Const (bytes : List UInt8)
  | numeric (op : NumericOp)
deriving DecidableEq, Repr

/-! ## Decoding -/

def decodeLEB (t : IntType) (bytes : List UInt8) : Option (BitVec t.width × Nat) :=
  if bytes = [] then none else (readLEBNumber t bytes).toOption

def decodeU32 (bytes : List UInt8) : Option (Nat × Nat) := do
  let (v, n) ← decodeLEB .uint32 bytes
  some (v.toNat, n)

def decodeBlockType (bytes : List UInt8) : Option BlockType := do
  blockTypeFromOpcode (← bytes.head?)

def decodeLabels : Nat → List UInt8 → Option (List Nat × Nat)
  | 0, _ => some ([], 0)
  | k + 1, bytes => do
    let (depth, n) ← decodeU32 bytes
    let (depths, m) ← decodeLabels k (bytes.drop n)
    some (depth :: depths, n + m)

def decodeZero (bytes : List UInt8) : Option Unit := if bytes.head? = some 0 then some () else none

def decodeBytes (n : Nat) (bytes : List UInt8) : Option (List UInt8) :=
  if bytes.length < n then none else some (bytes.take n)

/-- The instruction of an opcode, and how many bytes of immediates it has. -/
def decodeImmediates (op : Opcode) (bytes : List UInt8) : Option (Instr × Nat) :=
  match op with
  | .unreachable => some (.unreachable, 0)
  | .nop => some (.nop, 0)
  | .block => do some (.block (← decodeBlockType bytes), 1)
  | .loop => do some (.loop (← decodeBlockType bytes), 1)
  | .if => do some (.if (← decodeBlockType bytes), 1)
  | .else => some (.else, 0)
  | .end => some (.end, 0)
  | .br => do
    let (depth, n) ← decodeU32 bytes
    some (.br depth, n)
  | .brIf => do
    let (depth, n) ← decodeU32 bytes
    some (.brIf depth, n)
  | .brTable => do
    let (count, n) ← decodeU32 bytes
    let (depths, m) ← decodeLabels (count + 1) (bytes.drop n)
    some (.brTable depths, n + m)
  | .return => some (.return, 0)
  | .call => do
    let (idx, n) ← decodeU32 bytes
    some (.call idx, n)
  | .callIndirect => do
    let (idx, n) ← decodeU32 bytes
    let _ ← decodeZero (bytes.drop n)
    some (.callIndirect idx, n + 1)
  | .drop => some (.drop false, 0)
  | .select => some (.select false, 0)
  | .drop64 => some (.drop true, 0)
  | .select64 => some (.select true, 0)
  | .getGlobal64 | .setGlobal64 => none
  | .getLocal => do
    let (idx, n) ← decodeU32 bytes
    some (.getLocal idx, n)
  | .setLocal => do
    let (idx, n) ← decodeU32 bytes
    some (.setLocal idx, n)
  | .teeLocal => do
    let (idx, n) ← decodeU32 bytes
    some (.teeLocal idx, n)
  | .getGlobal => do
    let (idx, n) ← decodeU32 bytes
    some (.getGlobal idx, n)
  | .setGlobal => do
    let (idx, n) ← decodeU32 bytes
    some (.setGlobal idx, n)
  | .load op => do
    let (align, n) ← decodeU32 bytes
    let (offset, m) ← decodeU32 (bytes.drop n)
    some (.load op align offset, n + m)
  | .store op => do
    let (align, n) ← decodeU32 bytes
    let (offset, m) ← decodeU32 (bytes.drop n)
    some (.store op align offset, n + m)
  | .memorySize => do
    let _ ← decodeZero bytes
    some (.memorySize, 1)
  | .memoryGrow => do
    let _ ← decodeZero bytes
    some (.memoryGrow, 1)
  | .i32Const => do
    let (v, n) ← decodeLEB .int32 bytes
    some (.i32Const v, n)
  | .i64Const => do
    let (v, n) ← decodeLEB .int64 bytes
    some (.i64Const v, n)
  | .f32Const => do some (.f32Const (← decodeBytes 4 bytes), 4)
  | .f64Const => do some (.f64Const (← decodeBytes 8 bytes), 8)
  | .numeric op => some (.numeric op, 0)

/-- The instruction at the start of some bytes, and how many of them are its own. -/
def decode : List UInt8 → Option (Instr × Nat)
  | [] => none
  | b :: bytes => do
    let op ← Opcode.ofByte b
    let (i, n) ← decodeImmediates op bytes
    some (i, n + 1)

/-! ## Checking -/

namespace Typing

/-- The targets of `br_table` after the first, all with its types. -/
def checkLabels (expected : List ValType) : List Nat → Typing → Except LoadError Typing
  | [], v => .ok v
  | depth :: depths, v => do
    let (target, v) ← v.checkBranch depth
    if expected ≠ targetTypes target then .error .typeMismatchBrTableTargets
    else checkLabels expected depths v

def brTable : List Nat → Typing → Except LoadError Typing
  | [], _ => .error .assertion
  | depth :: depths, v => do
    let v ← v.popVal .i32
    let (target, v) ← v.checkBranch depth
    let v ← v.checkLabels (targetTypes target) depths
    v.leave

end Typing

section Check

variable (ctx : ModuleContext) (fn : CodeEntry)

def checkMemArg (natural align : Nat) : Except LoadError Unit :=
  if !ctx.hasMemory then .error .unknownMemory
  else if align > natural then .error .alignMustLargerThanNatural
  else .ok ()

/-- What the loader does to its types for an instruction at `ptr`, and whether it rewrites the opcode. -/
def Instr.check (ptr : Nat) (last : Bool) (i : Instr) (v : Typing) : Except LoadError (Typing × Bool) :=
  match i with
  | .unreachable => do .ok (← v.leave, false)
  | .nop => .ok (v, false)
  | .block t => do .ok (← v.openBlock .block t (ptr + 2), false)
  | .loop t => do .ok (← v.openBlock .loop t (ptr + 2), false)
  | .if t => do
    let v ← v.popVal .i32
    .ok (← v.openBlock .if t (ptr + 2), false)
  | .else => do .ok (← v.elseBlock ptr, false)
  | .end => do .ok (← v.endBlock last, false)
  | .br depth => do
    let (_, v) ← v.checkBranch depth
    .ok (← v.leave, false)
  | .brIf depth => do
    let v ← v.popVal .i32
    let (_, v) ← v.checkBranch depth
    .ok (v, false)
  | .brTable depths => do .ok (← v.brTable depths, false)
  | .return => do
    let v ← v.popValueTypes fn.type.result.toList
    .ok (← v.leave, false)
  | .call idx => do
    let type ← lookup ctx.functions .unknownFunction idx
    .ok (← v.callType type, false)
  | .callIndirect idx => do
    let type ← lookup ctx.types .unknownTypeIdx idx
    if !ctx.hasTable then .error .unknownTable
    else do
      let v ← v.popVal .i32
      .ok (← v.callType type, false)
  | .drop false => do
    let (t, v) ← v.popValueType .any
    .ok (v, FunctionLoader.isWide t)
  | .select false => do
    let (t, v) ← v.selectType
    .ok (v, FunctionLoader.isWide t)
  | .drop true | .select true => .error .unsupportedOpcode
  | .getLocal idx => do
    let t ← lookup (fn.type.params ++ fn.localTypes) .unknownLocal idx
    .ok (v.pushValueType (.val t), false)
  | .setLocal idx => do
    let t ← lookup (fn.type.params ++ fn.localTypes) .unknownLocal idx
    .ok (← v.popVal t, false)
  | .teeLocal idx => do
    let t ← lookup (fn.type.params ++ fn.localTypes) .unknownLocal idx
    let v ← v.popVal t
    .ok (v.pushValueType (.val t), false)
  | .getGlobal idx => do
    let g ← lookup ctx.globals .unknownGlobal idx
    .ok (v.pushValueType (.val g.type), false)
  | .setGlobal idx => do
    let g ← lookup ctx.globals .unknownGlobal idx
    if !g.mutable then .error .globalIsImmutable else .ok (← v.popVal g.type, false)
  | .load op align _ => do
    checkMemArg ctx op.align align
    .ok (← v.popAndPushValueType 1 .i32 op.result, false)
  | .store op align _ => do
    checkMemArg ctx op.align align
    .ok (← v.popValueTypes [.i32, op.operand], false)
  | .memorySize =>
    if !ctx.hasMemory then .error .unknownMemory else .ok (v.pushValueType (.val .i32), false)
  | .memoryGrow =>
    if !ctx.hasMemory then .error .unknownMemory else do .ok (← v.popAndPushValueType 1 .i32 .i32, false)
  | .i32Const _ => .ok (v.pushValueType (.val .i32), false)
  | .i64Const _ => .ok (v.pushValueType (.val .i64), false)
  | .f32Const _ => .ok (v.pushValueType (.val .f32), false)
  | .f64Const _ => .ok (v.pushValueType (.val .f64), false)
  | .numeric op => do
    .ok (← v.popAndPushValueType op.signature.numPops op.signature.popped op.signature.pushed, false)

/-- The opcode that a wide `drop` or `select` is replaced by. -/
def Instr.wideOpcode : Instr → UInt8
  | .drop _ => 0xc5
  | _ => 0xc6

end Check

/-! ## The loader's loop -/

namespace FunctionLoader

section

variable (s : FunctionLoader)

@[simp] theorem rest_advance (n : Nat) : (s.advance n).rest = s.rest.drop n := by
  rw [rest, rest, List.drop_drop]
  rfl

theorem readByte_toOption : s.readByte.toOption = s.rest.head?.map fun b => (b, s.advance 1) := by
  rw [readByte]
  cases s.rest <;> rfl

theorem readLEB_toOption (t : IntType) (s : FunctionLoader) :
    (s.readLEB t).toOption = (decodeLEB t s.rest).map fun r => (r.1, s.advance r.2) := by
  have none : s.ptr ≥ s.code.length ↔ s.rest = [] := List.drop_eq_nil_iff.symm
  rw [readLEB, decodeLEB]
  by_cases h : s.rest = []
  · rw [if_pos (none.mpr h), if_pos h]
    rfl
  · rw [if_neg (none.not.mpr h), if_neg h]
    cases readLEBNumber t s.rest <;> rfl

theorem readU32_toOption : s.readU32.toOption = (decodeU32 s.rest).map fun r => (r.1, s.advance r.2) := by
  rw [readU32, decodeU32, toOption_bind, readLEB_toOption]
  cases decodeLEB .uint32 s.rest <;> rfl

theorem readBlockType_toOption : s.readBlockType.toOption = (decodeBlockType s.rest).map fun t => (t, s.advance 1) := by
  rw [readBlockType, decodeBlockType, toOption_bind, readByte_toOption]
  cases s.rest with
  | nil => rfl
  | cons b bytes =>
    dsimp only [Option.map, Option.bind, List.head?, bind]
    cases blockTypeFromOpcode b <;> rfl

theorem readZero_toOption : s.readZero.toOption = (decodeZero s.rest).map fun _ => s.advance 1 := by
  rw [readZero, decodeZero, toOption_bind, readByte_toOption]
  cases s.rest with
  | nil => rfl
  | cons b bytes =>
    by_cases h : b = 0
    · subst h
      rfl
    · show (if b ≠ 0 then _ else _ : Except LoadError _).toOption = Option.map _ (if some b = some 0 then _ else _)
      rw [if_pos h, if_neg (fun eq => h (Option.some.inj eq))]
      rfl

end

theorem readBytes_toOption {n : Nat} (pos : 0 < n) (s : FunctionLoader) :
    (s.readBytes n).toOption = (decodeBytes n s.rest).map fun _ => s.advance n := by
  have short : s.ptr + n > s.code.length ↔ s.rest.length < n := by
    rw [rest, List.length_drop]
    omega
  rw [readBytes, decodeBytes]
  by_cases h : s.rest.length < n
  · rw [if_pos (short.mpr h), if_pos h]
    rfl
  · rw [if_neg (short.not.mpr h), if_neg h]
    rfl

theorem readIdx_toOption {α : Type} (table : List α) (unknown : LoadError) (s : FunctionLoader) :
    (s.readIdx table unknown).toOption = (decodeU32 s.rest).bind fun r =>
      (lookup table unknown r.1).toOption.map fun entry => (entry, s.advance r.2) := by
  rw [readIdx, toOption_bind, readU32_toOption]
  cases decodeU32 s.rest with
  | none => rfl
  | some r => cases h : lookup table unknown r.1 <;> simp [h]

theorem typed_toOption (f : Typing → Except LoadError Typing) (s : FunctionLoader) :
    (s.typed f).toOption = (f s.typing).toOption.map fun v => { s with typing := v } := by
  rw [typed, toOption_bind]
  cases f s.typing <;> rfl

theorem checkBranch_toOption (s : FunctionLoader) :
    s.checkBranch.toOption = (decodeU32 s.rest).bind fun r => (s.typing.checkBranch r.1).toOption.bind fun c =>
      some (c.1, ⟨s.code, s.ptr + r.2, c.2⟩) := by
  rw [checkBranch, toOption_bind, readU32_toOption]
  cases decodeU32 s.rest with
  | none => rfl
  | some r => exact toOption_bind _ _

theorem checkTargets_toOption (expected : List ValType) : ∀ (n : Nat) (s : FunctionLoader),
    (checkTargets expected n s).toOption = (decodeLabels n s.rest).bind fun r =>
      (s.typing.checkLabels expected r.1).toOption.bind fun v => some ⟨s.code, s.ptr + r.2, v⟩
  | 0, _ => rfl
  | n + 1, s => by
    rw [checkTargets, toOption_bind, checkBranch_toOption, decodeLabels]
    simp only [Option.bind_eq_bind, Option.bind_assoc, Option.bind_some, Typing.checkLabels, toOption_bind,
      toOption_ite, toOption_error]
    refine Option.bind_congr fun r _ => ?_
    rw [Option.bind_comm]
    refine Option.bind_congr fun c _ => ?_
    have rest : (⟨s.code, s.ptr + r.2, c.2⟩ : FunctionLoader).rest = s.rest.drop r.2 := rest_advance s r.2
    by_cases same : expected = Typing.targetTypes c.1
    · simp only [ne_eq, same, not_true_eq_false, if_false]
      rw [← same, checkTargets_toOption expected n, rest]
      simp only [Nat.add_assoc]
    · simp only [ne_eq, same, not_false_eq_true, if_true, Option.bind_none, Option.bind_fun_none]

section Step

variable (ctx : ModuleContext) (fn : CodeEntry)

theorem readMemArg_toOption (natural : Nat) (s : FunctionLoader) :
    (s.readMemArg ctx natural).toOption = (decodeU32 s.rest).bind fun r =>
      (decodeU32 (s.rest.drop r.2)).bind fun r' => (checkMemArg ctx natural r.1).toOption.bind fun _ =>
        some (s.advance (r.2 + r'.2)) := by
  rw [readMemArg]
  by_cases h : ctx.hasMemory = true
  · simp only [h, Bool.not_true, Bool.false_eq_true, if_false, toOption_bind, readU32_toOption,
      Option.map_eq_bind, Option.bind_assoc, Function.comp_def, Option.bind_some, checkMemArg, toOption_ite,
      toOption_error, toOption_ok, rest_advance]
    refine Option.bind_congr fun r _ => Option.bind_congr fun r' _ => ?_
    split
    · rfl
    · rw [advance, advance, advance, Nat.add_assoc]
      rfl
  · simp only [h, Bool.not_false, if_true, toOption_error, checkMemArg, Option.bind_none, Option.bind_fun_none]

theorem handle_eq (op : Opcode) (s : FunctionLoader) (ptr : 0 < s.ptr) :
    (s.handle ctx fn op).toOption = (decodeImmediates op s.rest).bind fun r =>
      (r.1.check ctx fn (s.ptr - 1) (decide (s.ptr + r.2 ≥ s.code.length)) s.typing).toOption.bind fun c =>
        some ⟨if c.2 then s.code.set (s.ptr - 1) r.1.wideOpcode else s.code, s.ptr + r.2, c.1⟩ := by
  have opened : s.ptr - 1 + 2 = s.ptr + 1 := by omega
  cases op <;>
    simp only [handle, decodeImmediates, Instr.check, toOption_bind, toOption_ok, toOption_error,
      readU32_toOption, readLEB_toOption, readBlockType_toOption, readZero_toOption, readIdx_toOption,
      typed_toOption, pushVal, readLocal, Option.bind_some, Option.bind_none, Option.bind_assoc,
      Function.comp_def, Option.bind_eq_bind, Option.map_eq_bind, checkBranch_toOption, readMemArg_toOption,
      toOption_ite, rest_advance, opened]
  case «if» | brIf =>
    rw [Option.bind_comm]
    rfl
  case brTable =>
    refine Option.bind_congr fun r _ => ?_
    simp only [decodeLabels, Option.bind_eq_bind, Option.bind_assoc, Option.bind_some, Typing.brTable,
      toOption_bind, checkTargets_toOption]
    -- the value and the labels are checked in the order they are read in
    have rest (k : Nat) (v : Typing) : (⟨s.code, s.ptr + r.2 + k, v⟩ : FunctionLoader).rest =
        (s.rest.drop r.2).drop k := by
      rw [FunctionLoader.rest, FunctionLoader.rest, List.drop_drop, List.drop_drop, Nat.add_assoc]
    have here (v : Typing) : (⟨s.code, s.ptr + r.2, v⟩ : FunctionLoader).rest = s.rest.drop r.2 := rest 0 v
    simp only [advance, rest, here]
    cases decodeU32 (s.rest.drop r.2) with
    | none => simp only [Option.bind_none, Option.bind_fun_none]
    | some r' =>
      simp only [Option.bind_some]
      cases decodeLabels r.1 ((s.rest.drop r.2).drop r'.2) with
      | none => simp only [Option.bind_none, Option.bind_fun_none]
      | some r'' =>
        simp only [Option.bind_some, Nat.add_assoc]
        rfl
  case callIndirect =>
    refine Option.bind_congr fun r _ => ?_
    rw [Option.bind_comm]
    refine Option.bind_congr fun _ _ => Option.bind_congr fun type _ => ?_
    cases ctx.hasTable with
    | false => rfl
    | true =>
      simp only [Bool.not_true, Bool.false_eq_true, if_false, Option.bind_assoc, Option.bind_some]
      rfl
  case drop | select =>
    refine Option.bind_congr fun c _ => congrArg some ?_
    rw [rewriteOpcode]
    cases isWide c.1 <;> rfl
  case setGlobal =>
    refine Option.bind_congr fun r _ => Option.bind_congr fun g _ => ?_
    cases g.mutable with
    | false => rfl
    | true =>
      simp only [Bool.not_true, Bool.false_eq_true, if_false, Option.bind_assoc, Option.bind_some]
      rfl
  case memorySize =>
    cases ctx.hasMemory with
    | true => rfl
    | false => exact (Option.bind_fun_none _).symm
  case memoryGrow =>
    cases ctx.hasMemory with
    | true =>
      simp only [Bool.not_true, Bool.false_eq_true, if_false, Option.bind_assoc, Option.bind_some]
      rfl
    | false => exact (Option.bind_fun_none _).symm
  case f32Const | f64Const =>
    rw [readBytes_toOption (by decide), Option.map_eq_bind, Option.bind_assoc]
    rfl
  all_goals rfl

/-- **A turn of the loader's loop** is an instruction read and checked. -/
theorem step_eq (s : FunctionLoader) : (s.step ctx fn).toOption = (decode s.rest).bind fun r =>
      (r.1.check ctx fn s.ptr (decide (s.ptr + r.2 ≥ s.code.length)) s.typing).toOption.bind fun c =>
        some ⟨if c.2 then s.code.set s.ptr r.1.wideOpcode else s.code, s.ptr + r.2, c.1⟩ := by
  rw [step, toOption_bind, readByte_toOption]
  cases h : s.rest with
  | nil => rfl
  | cons b bytes =>
    have rest : (s.advance 1).rest = bytes := by
      rw [rest_advance, h]
      rfl
    rw [decode]
    simp only [List.head?_cons, Option.map_some, Option.bind_some, Option.bind_eq_bind]
    cases Opcode.ofByte b with
    | none => rfl
    | some op =>
      rw [handle_eq _ _ _ _ (Nat.succ_pos _), rest, Option.bind_some, Option.bind_assoc]
      refine Option.bind_congr fun r _ => ?_
      simp only [advance, Nat.add_sub_cancel, Option.bind_some, Nat.add_assoc, Nat.add_comm 1]

end Step

end FunctionLoader

end Dtvm.Wasm
