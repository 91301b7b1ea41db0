import Dtvm.Jit.Lifted
import Dtvm.Jit.RuntimeStack

/-!
# Leaving a lifted block

The visitor compiles a lifted block with its stack in operands, also for the values that the block does not touch
(the hidden prefix). A block that is followed by code which expects the stack in memory writes its operands there
(`finalizeBlockExit`, `spillTrackedStackPreservingPrefix`).

Along a block the operands stand for the stack of the machine (`handled_agrees`). The write leaves room for the
hidden prefix although the operands contain it, so the stack in memory is that of the machine exactly if there is
no hidden prefix (`finalizeBlockExit_exact_iff`).
-/

namespace Dtvm.Jit

open Analyzer

/-! ## Writing the operands to memory -/

/-- The loop of `spillTrackedStackPreservingPrefix`, from an offset on. -/
def spillLoop : Bytes → Nat → List Word → Bytes
  | buffer, _, [] => buffer
  | buffer, offset, w :: ws => spillLoop (overwrite buffer offset (storeWord w)) (offset + 32) ws

/-- `EVMMirBuilder::spillTrackedStackPreservingPrefix`. The operands come with the bottom one first. -/
def RuntimeStack.spillTrackedStackPreservingPrefix (s : RuntimeStack) (trackedStack : List Word)
    (prefixDepth : Nat) : RuntimeStack where
  buffer := spillLoop s.buffer (prefixDepth * 32) trackedStack
  size := (prefixDepth + trackedStack.length) * 32

theorem length_flatMap_storeWord (words : List Word) : (words.flatMap storeWord).length = 32 * words.length := by
  induction words with
  | nil => rfl
  | cons w words ih =>
    rw [List.flatMap_cons, List.length_append, ih, length_storeWord, List.length_cons]
    omega

theorem spillLoop_eq (ws : List Word) {buffer : Bytes} {offset : Nat} (fits : offset + 32 * ws.length ≤ buffer.length) :
    spillLoop buffer offset ws =
      buffer.take offset ++ ws.flatMap storeWord ++ buffer.drop (offset + 32 * ws.length) := by
  induction ws generalizing buffer offset with
  | nil =>
    rw [spillLoop, List.flatMap_nil, List.append_nil, List.length_nil, Nat.mul_zero, Nat.add_zero,
      List.take_append_drop]
  | cons w ws ih =>
    rw [List.length_cons] at fits
    have before : (buffer.take offset ++ storeWord w).length = offset + 32 := by
      rw [List.length_append, List.length_take, length_storeWord]
      omega
    have length : (overwrite buffer offset (storeWord w)).length = buffer.length := by
      rw [overwrite, List.length_append, before, List.length_drop, length_storeWord]
      omega
    have behind : (buffer.take offset ++ storeWord w ++ buffer.drop (offset + 32)).drop
        (offset + 32 + 32 * ws.length) = buffer.drop (offset + 32 * (ws.length + 1)) := by
      rw [← before, List.drop_length_add_append, before, List.drop_drop]
      congr 1
      omega
    rw [spillLoop, ih (by rw [length]; omega), overwrite, length_storeWord, List.take_left' before, behind,
      List.length_cons, List.flatMap_cons, List.append_assoc (buffer.take offset) (storeWord w)]

theorem RuntimeStack.spill_holds {s : RuntimeStack} (capacity : s.buffer.length = evmStackCapacity)
    {words : List Word} (room : words.length ≤ maxStack) :
    (s.spillTrackedStackPreservingPrefix words 0).Holds words := by
  have length := length_flatMap_storeWord words
  rw [evmStackCapacity] at capacity
  rw [maxStack] at room
  have buffer : (s.spillTrackedStackPreservingPrefix words 0).buffer =
      words.flatMap storeWord ++ s.buffer.drop (32 * words.length) := by
    show spillLoop s.buffer (0 * 32) words = _
    rw [spillLoop_eq words (by omega), Nat.zero_mul, Nat.zero_add]
    rfl
  refine ⟨?_, ?_, ?_, room⟩
  · rw [buffer, List.length_append, length, List.length_drop, evmStackCapacity]
    omega
  · show (0 + words.length) * 32 = _
    omega
  · rw [buffer]
    apply List.take_left'
    show _ = (0 + words.length) * 32
    omega

/-! ## The visitor -/

section Visitor

variable {α : Type}

/-- The variables of the visitor that a lifted block uses. The stack has its top first. -/
structure Visitor (α : Type) where
  stack : List α
  currentBlockLifted : Bool
  currentBlockHiddenLiveInPrefixDepth : Nat
deriving DecidableEq

def validateLiftedBlockStackBounds (info : BlockInfo) : Bool :=
  decide (0 ≤ info.resolvedEntryStackDepth + info.minStackHeight) &&
    decide (info.resolvedEntryStackDepth + info.maxStackHeight ≤ maxStack)

/-- `handleBeginBlock` for a lifted block with its logical entry state, the bottom operand first. `none` is a
trap. -/
def handleBeginBlock (info : BlockInfo) (entryState : List α) : Option (Visitor α) :=
  if validateLiftedBlockStackBounds info = false then none
  else if maxStack < -info.minStackHeight then none
  else if maxStack < info.maxStackHeight then none
  else some
    { stack := entryState.reverse
      currentBlockLifted := true
      currentBlockHiddenLiveInPrefixDepth := (max info.hiddenLiveInPrefixDepth 0).toNat }

def Visitor.drainLogicalStack (v : Visitor α) : List α := v.stack.reverse

/-- `finalizeBlockExit`, with the values that the operands have at run time. -/
def Visitor.finalizeBlockExit (v : Visitor α) (value : α → Word) (materialize : Bool)
    (s : RuntimeStack) : RuntimeStack :=
  let values := v.drainLogicalStack.map value
  if materialize then
    if v.currentBlockLifted then
      s.spillTrackedStackPreservingPrefix values v.currentBlockHiddenLiveInPrefixDepth
    else values.foldl RuntimeStack.stackPush s
  else s

/-- An opcode runs on the machine, and its handler does the same to the operands: the new ones stand for the
words that the machine pushes. -/
structure Handled (frame : Setup) (host : Host) (value : α → Word) (m : Machine) (stack : List α)
    (m' : Machine) (stack' : List α) : Prop where
  step : frame.Step host m m'
  operands : ∃ out, stack' = (opAt frame.env.code m.pc).stackOp.run out stack ∧
    out.map value = m'.stack.words.take (opAt frame.env.code m.pc).stackOp.fresh

variable {frame : Setup} {host : Host} {value : α → Word} {m m' : Machine} {stack stack' : List α}

theorem handled_agrees (h : Handled frame host value m stack m' stack')
    (same : stack.map value = m.stack.words) : stack'.map value = m'.stack.words := by
  obtain ⟨words, fresh, eq⟩ := h.step.words
  obtain ⟨out, rfl, new⟩ := h.operands
  rw [OperandStack.Op.map_run, same, new, eq]
  revert fresh
  generalize (opAt frame.env.code m.pc).stackOp = op
  intro fresh
  cases op with
  | dup | swap => rfl
  | plain pops pushes =>
    rw [OperandStack.Op.run, OperandStack.Op.run, List.take_left' fresh]

def BlockRun (frame : Setup) (host : Host) (value : α → Word) :
    Machine × List α → Machine × List α → Prop :=
  Relation.ReflTransGen fun a b => Handled frame host value a.1 a.2 b.1 b.2

theorem BlockRun.refl (a : Machine × List α) : BlockRun frame host value a a :=
  Relation.ReflTransGen.refl

theorem BlockRun.tail {a : Machine × List α} (run : BlockRun frame host value a (m, stack))
    (last : Handled frame host value m stack m' stack') : BlockRun frame host value a (m', stack') :=
  Relation.ReflTransGen.tail run last

theorem blockRun_agrees {a b : Machine × List α} (run : BlockRun frame host value a b)
    (same : a.2.map value = a.1.stack.words) (room : Setup.HasRoom a.1) :
    b.2.map value = b.1.stack.words ∧ Setup.HasRoom b.1 := by
  induction run with
  | refl => exact ⟨same, room⟩
  | tail _ last ih => exact ⟨handled_agrees last ih.1, last.step.hasRoom ih.2⟩

theorem hiddenLiveInPrefixDepth_eq {tables : StackTables} {rev : Revision} {code : Bytes} {fuel : Nat}
    {a : Analysis} (eq : analyze tables rev code fuel = some a) {info : BlockInfo}
    (mem : info ∈ a.blockInfos) (lifted : info.canLiftStack = true) :
    info.hiddenLiveInPrefixDepth = max (info.resolvedEntryStackDepth - info.entryStackDepth) 0 := by
  rw [analyze] at eq
  simp only [Option.bind_eq_bind, Option.bind_eq_some_iff, Option.some.injEq] at eq
  obtain ⟨-, -, infos, -, rfl⟩ := eq
  obtain ⟨nonneg, good⟩ := finalize_lifted mem lifted
  obtain ⟨c, hc, rfl⟩ := List.mem_map.mp mem
  obtain ⟨d, hd, rfl⟩ := List.mem_map.mp hc
  obtain ⟨e, -, rfl⟩ := List.mem_map.mp hd
  have nonneg : 0 ≤ e.resolvedEntryStackDepth := nonneg
  have good : e.hasInconsistentEntryDepth = false := good
  show (if (decide (0 ≤ e.resolvedEntryStackDepth) && !e.hasInconsistentEntryDepth) = true ∧
      e.entryStackDepth < e.resolvedEntryStackDepth then
      e.resolvedEntryStackDepth - e.entryStackDepth else 0) =
    max (e.resolvedEntryStackDepth - e.entryStackDepth) 0
  rw [decide_eq_true nonneg, good]
  simp only [Bool.not_false, Bool.and_self, true_and]
  split <;> omega

/-- **A lifted block leaves the stack of the machine in memory exactly if it is not entered with values
below those it touches.** -/
theorem finalizeBlockExit_exact_iff {tables : StackTables} {env : Env} {code : Bytecode} {fuel : Nat}
    {a : Analysis} (eq : analyze tables env.rev code.bytes fuel = some a) {info : BlockInfo}
    (mem : info ∈ a.blockInfos) (lifted : info.canLiftStack = true)
    {entryState : List α} {v : Visitor α} (begins : handleBeginBlock info entryState = some v)
    (same : v.stack.map value = m.stack.words) (room : Setup.HasRoom m)
    (run : BlockRun (.load tables.toInstructionTables env.rev env code) host value (m, v.stack) (m', stack'))
    {s : RuntimeStack} (capacity : s.buffer.length = evmStackCapacity) :
    ({ v with stack := stack' }.finalizeBlockExit value true s).Holds m'.stack.words.reverse ↔
      info.resolvedEntryStackDepth ≤ info.entryStackDepth := by
  obtain ⟨agrees, room'⟩ := blockRun_agrees run same room
  have agrees : stack'.map value = m'.stack.words := agrees
  have room' : m'.stack.words.length ≤ maxStack := by
    rw [Stack.length_words]
    exact room'
  have hidden := hiddenLiveInPrefixDepth_eq eq mem lifted
  unfold handleBeginBlock at begins
  split at begins
  · cases begins
  split at begins
  · cases begins
  split at begins
  · cases begins
  cases begins
  show (s.spillTrackedStackPreservingPrefix (stack'.reverse.map value)
    (max info.hiddenLiveInPrefixDepth 0).toNat).Holds m'.stack.words.reverse ↔ _
  rw [List.map_reverse, agrees]
  constructor
  · -- The size that is set counts the prefix twice.
    intro holds
    have size := holds.size
    have size : ((max info.hiddenLiveInPrefixDepth 0).toNat + m'.stack.words.reverse.length) * 32 =
      32 * m'.stack.words.reverse.length := size
    omega
  · intro le
    have none : (max info.hiddenLiveInPrefixDepth 0).toNat = 0 := by omega
    rw [none]
    apply RuntimeStack.spill_holds capacity
    rw [List.length_reverse]
    exact room'

end Visitor

/-- `PUSH1 5`; then a block `JUMPDEST, b, POP` before a loop that is not lifted. -/
def exitCode (b : UInt8) : Bytecode :=
  ⟨[0x60, 5, 0x5b, b, 0x50, 0x5b, 0x34, 0x60, 5, 0x56], show 10 + 33 ≤ 2 ^ 32 by decide⟩

def emptyStack : RuntimeStack := ⟨List.replicate 32768 0, 0⟩

/-- The operands of the block, which are words here, before and after one of its opcodes. -/
def HandledAfter (b : UInt8) (n : Nat) (stack stack' : List Word) : Prop :=
  Handled (.load freeTables.toInstructionTables bareEnv.rev bareEnv (exitCode b)) .idle id (after (exitCode b) n) stack
    (after (exitCode b) (n + 1)) stack'

/-- With `DUP1`, the block looks at the value it is entered with. -/
theorem finalizeBlockExit_exact_touched : ∃ info ∈ (loopAnalysis (exitCode 0x80)).blockInfos,
    info.canLiftStack = true ∧ info.resolvedEntryStackDepth ≤ info.entryStackDepth ∧
      ∃ v, handleBeginBlock info [(5 : Word)] = some v ∧
        (({ v with stack := [5] } : Visitor Word).finalizeBlockExit id true emptyStack).Holds [5] := by
  have analysis : analyze freeTables bareEnv.rev (exitCode 0x80).bytes 10 =
      some (loopAnalysis (exitCode 0x80)) := by decide +kernel
  obtain ⟨info, mem, lifted, begins, touched⟩ : ∃ info ∈ (loopAnalysis (exitCode 0x80)).blockInfos,
      info.canLiftStack = true ∧ handleBeginBlock info [(5 : Word)] = some ⟨[5], true, 0⟩ ∧
        info.resolvedEntryStackDepth ≤ info.entryStackDepth := by decide +kernel
  have jumpdest : HandledAfter 0x80 1 [5] [5] :=
    ⟨after_step (by decide +kernel) (by decide +kernel), [], by decide +kernel, by decide +kernel⟩
  have dup : HandledAfter 0x80 2 [5] [5, 5] :=
    ⟨after_step (by decide +kernel) (by decide +kernel), [], by decide +kernel, by decide +kernel⟩
  have pop : HandledAfter 0x80 3 [5, 5] [5] :=
    ⟨after_step (by decide +kernel) (by decide +kernel), [], by decide +kernel, by decide +kernel⟩
  have run : BlockRun (.load freeTables.toInstructionTables bareEnv.rev bareEnv (exitCode 0x80)) .idle id
      (after (exitCode 0x80) 1, [5]) (after (exitCode 0x80) 4, [5]) :=
    (((BlockRun.refl _).tail jumpdest).tail dup).tail pop
  have words : (after (exitCode 0x80) 4).stack.words.reverse = [5] := by decide +kernel
  refine ⟨info, mem, lifted, touched, _, begins, ?_⟩
  rw [← words]
  exact (finalizeBlockExit_exact_iff analysis mem lifted begins (by decide +kernel)
    (show _ ≤ maxStack by decide +kernel) run List.length_replicate).mpr touched

/-- With `CALLVALUE`, the block does not touch the 5 it is entered with. The machine has one word, and the
stack in memory two. -/
theorem finalizeBlockExit_counts_twice : ∃ info ∈ (loopAnalysis (exitCode 0x34)).blockInfos,
    info.canLiftStack = true ∧ ∃ v, handleBeginBlock info [(5 : Word)] = some v ∧
      BlockRun (.load freeTables.toInstructionTables bareEnv.rev bareEnv (exitCode 0x34)) .idle id
        (after (exitCode 0x34) 1, v.stack) (after (exitCode 0x34) 4, [5]) ∧
      v.stack.map id = (after (exitCode 0x34) 1).stack.words ∧
      ¬ (({ v with stack := [5] } : Visitor Word).finalizeBlockExit id true emptyStack).Holds
        (after (exitCode 0x34) 4).stack.words.reverse := by
  obtain ⟨info, mem, lifted, begins⟩ : ∃ info ∈ (loopAnalysis (exitCode 0x34)).blockInfos,
      info.canLiftStack = true ∧ handleBeginBlock info [(5 : Word)] = some ⟨[5], true, 1⟩ := by
    decide +kernel
  have jumpdest : HandledAfter 0x34 1 [5] [5] :=
    ⟨after_step (by decide +kernel) (by decide +kernel), [], by decide +kernel, by decide +kernel⟩
  have callvalue : HandledAfter 0x34 2 [5] [0, 5] :=
    ⟨after_step (by decide +kernel) (by decide +kernel), [0], by decide +kernel, by decide +kernel⟩
  have pop : HandledAfter 0x34 3 [0, 5] [5] :=
    ⟨after_step (by decide +kernel) (by decide +kernel), [], by decide +kernel, by decide +kernel⟩
  have words : (after (exitCode 0x34) 4).stack.words.reverse = [5] := by decide +kernel
  refine ⟨info, mem, lifted, _, begins,
    (((BlockRun.refl _).tail jumpdest).tail callvalue).tail pop, by decide +kernel, fun holds => ?_⟩
  rw [words] at holds
  exact absurd holds.size (show ¬ (1 + 1) * 32 = 32 * 1 by decide)

end Dtvm.Jit
