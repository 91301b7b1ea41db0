import Dtvm.Jit.RuntimeStack

/-!
# Falling back from compiled code to the interpreter

`EVMMirBuilder::fallbackToInterpreter` leaves the compiled code at an opcode that the interpreter is to go on
from. `evmHandleFallback` builds a frame for it: the current message is copied, pushed and popped again, and
`restoreStateFromInstance` fills in the program counter, the stack and the memory.

Compiled code keeps a word as four 64-bit limbs with their low bytes first (`RuntimeStack`). The copy reads one
byte of each limb, the new context starts without return data, and the frame's gas is the message's. So the frame
is the state that was left only if each limb is a byte, there is no return data and the message's gas is up to
date (`fallback_exact_iff`).
-/

namespace Dtvm.Jit

/-! ## The instance -/

/-- The fields of `EVMInstance` that the fallback touches. `CurrentMessage` is the back of
`MessageStack` and `MemoryBase` is `Memory.get()` from the first `pushMessage` on, so neither is a
field. The stacks have their back first. -/
structure Instance where
  codeSize : Nat
  gas : Nat
  gasRefund : Int
  messageStack : List Message
  gasRefundStack : List Int
  memory : Option Bytes
  memorySize : Nat
  memoryStack : List (Option Bytes × Nat)
  returnData : Bytes
  evmStack : Bytes
  evmStackSize : Nat

namespace Instance

def pushMessage (inst : Instance) (msg : Message) : Instance :=
  { inst with
    memoryStack := if inst.messageStack.isEmpty then []
      else (inst.memory, inst.memorySize) :: inst.memoryStack
    memory := if inst.messageStack.isEmpty then inst.memory else none
    memorySize := 0
    messageStack := msg :: inst.messageStack
    gasRefundStack := inst.gasRefund :: inst.gasRefundStack
    gas := msg.gas }

def popMessage (inst : Instance) : Instance :=
  { inst with
    messageStack := inst.messageStack.tail
    gasRefundStack := inst.gasRefundStack.tail
    memory := (inst.memoryStack.head?.getD (inst.memory, 0)).1
    memorySize := (inst.memoryStack.head?.getD (inst.memory, 0)).2
    memoryStack := inst.memoryStack.tail
    gas := (inst.messageStack.tail.head?.map Message.gas).getD 0 }

/-- Popping what was pushed puts everything back but the gas, which is set to the message's. -/
theorem popMessage_pushMessage {inst : Instance} {current : Message}
    (running : inst.messageStack.head? = some current) (msg : Message) :
    (inst.pushMessage msg).popMessage = { inst with gas := current.gas } := by
  obtain ⟨callers, eq⟩ : ∃ callers, inst.messageStack = current :: callers :=
    ⟨_, List.eq_cons_of_mem_head? running⟩
  simp only [pushMessage, popMessage, eq, List.isEmpty_cons, Bool.false_eq_true, if_false,
    List.head?_cons, List.tail_cons, Option.getD_some, Option.map_some]

end Instance

/-! ## The interpreter's frame -/

/-- What the fallback sets of an `InterpreterExecContext` and its `EVMFrame`. The stack is given by its
`Sp` entries, the bottom one first. -/
structure Context where
  stack : List Word
  memory : Bytes
  msg : Message
  gasRefundSnapshot : Int
  pc : Nat
  returnData : Bytes
  status : Status

/-- `InterpreterExecContext::allocTopFrame` in a new context. -/
def allocTopFrame (inst : Instance) (msg : Message) : Context × Instance :=
  ({ stack := [], memory := [], msg := msg, gasRefundSnapshot := inst.gasRefund, pc := 0,
     returnData := [], status := .success }, inst.pushMessage msg)

/-- The copy of one element. `ElementData` points to bytes, and `*ElementData` is one of them. -/
def restoreElement (evmStackData : Bytes) (i : Nat) : Word :=
  ofLimbs fun j => BitVec.ofNat 64 (evmStackData.getD (32 * i + 8 * j) 0).toNat

/-- The copy of the memory, which is empty as long as none is allocated. -/
def restoreMemory (inst : Instance) : Bytes :=
  if 0 < inst.memorySize then (inst.memory.map fun data => data.take inst.memorySize).getD [] else []

def Context.restoreStateFromInstance (ctx : Context) (inst : Instance) (startPC : Nat) : Context :=
  if inst.codeSize ≤ startPC then { ctx with status := .badJumpDestination }
  else if maxStack < inst.evmStackSize / 32 then
    { ctx with pc := startPC, status := .stackOverflow }
  else
    { ctx with
      pc := startPC
      stack := (List.range (inst.evmStackSize / 32)).map (restoreElement inst.evmStack)
      memory := restoreMemory inst
      status := .success }

/-- `evmHandleFallback`, up to where the interpreter is started. Without a current message the
assertion fails. -/
def evmHandleFallback (inst : Instance) (pc : Nat) : Option Context :=
  inst.messageStack.head?.map fun current =>
    (allocTopFrame inst current).1.restoreStateFromInstance
      (allocTopFrame inst current).2.popMessage pc

/-! ## The compiled code -/

/-- Where compiled code keeps its state: in the instance, and in the variables `StackSizeVar` and, in
some builds, `GasRegVar`. -/
structure Compiled where
  inst : Instance
  stackSizeVar : Nat
  gasRegVar : Option Nat

def Compiled.gas (c : Compiled) : Nat := c.gasRegVar.getD c.inst.gas

/-- `EVMMirBuilder::fallbackToInterpreter`: the gas (`syncGasToMemory`) and the stack's size are written
back. -/
def Compiled.fallbackToInterpreter (c : Compiled) (targetPC : Nat) : Option Context :=
  evmHandleFallback { c.inst with gas := c.gas, evmStackSize := c.stackSizeVar } targetPC

structure State where
  stack : List Word
  memory : Bytes
  gas : Nat
  returnData : Bytes
  pc : Nat
deriving DecidableEq

def Context.state (ctx : Context) : State where
  stack := ctx.stack
  memory := ctx.memory
  gas := ctx.msg.gas
  returnData := ctx.returnData
  pc := ctx.pc

/-- A point of compiled code where a fallback is taken: a message is running, the run-time stack holds
words, the memory is allocated as far as it is used, and the program counter is inside the code. -/
structure FallbackPoint where
  code : Compiled
  targetPC : Nat
  message : Message
  words : List Word
  running : code.inst.messageStack.head? = some message
  holds : RuntimeStack.Holds ⟨code.inst.evmStack, code.stackSizeVar⟩ words
  allocated : code.inst.memorySize ≤ (code.inst.memory.getD []).length
  inside : targetPC < code.inst.codeSize

namespace FallbackPoint

variable (p : FallbackPoint)

def state : State where
  stack := p.words
  memory := (p.code.inst.memory.getD []).take p.code.inst.memorySize
  gas := p.code.gas
  returnData := p.code.inst.returnData
  pc := p.targetPC

def copied : List Word := (List.range p.words.length).map (restoreElement p.code.inst.evmStack)

theorem restoreMemory_eq (inst : Instance) : restoreMemory inst = (inst.memory.getD []).take inst.memorySize := by
  rw [restoreMemory]
  split
  · cases inst.memory with
    | none => exact (List.take_nil).symm
    | some data => rfl
  · next empty =>
    rw [Nat.eq_zero_of_not_pos empty, List.take_zero]

theorem fallback_state :
    (p.code.fallbackToInterpreter p.targetPC).map Context.state = some { p.state with
      stack := p.copied
      gas := p.message.gas
      returnData := [] } := by
  have size : p.code.stackSizeVar / 32 = p.words.length := by
    rw [show p.code.stackSizeVar = 32 * p.words.length from p.holds.size]
    omega
  have inside : ¬ p.code.inst.codeSize ≤ p.targetPC := Nat.not_le.mpr p.inside
  have room : ¬ maxStack < p.words.length := Nat.not_lt.mpr p.holds.room
  rw [Compiled.fallbackToInterpreter, evmHandleFallback, p.running, Option.map_some, Option.map_some,
    allocTopFrame, Instance.popMessage_pushMessage (by exact p.running)]
  simp only [Context.restoreStateFromInstance, size, if_neg inside, if_neg room, Context.state,
    restoreMemory_eq, state, copied]

theorem limb_restoreElement {i : Nat} (within : i < p.words.length) {j : Nat} (limb_lt : j < 4) :
    (limb (restoreElement p.code.inst.evmStack i) j).toNat = (limb p.words[i] j).toNat % 256 := by
  rw [restoreElement, limb_ofLimbs _ limb_lt, List.getD_eq_getElem?_getD, p.holds.byte within limb_lt,
    Option.getD_some, BitVec.toNat_ofNat, UInt8.toNat_ofNat']
  omega

theorem restoreElement_eq_iff {i : Nat} (within : i < p.words.length) :
    restoreElement p.code.inst.evmStack i = p.words[i] ↔ ∀ j < 4, (limb p.words[i] j).toNat < 256 := by
  rw [← ofLimbs_limb (restoreElement p.code.inst.evmStack i), ofLimbs_eq_iff]
  refine forall_congr' fun j => forall_congr' fun limb_lt => ?_
  rw [← BitVec.toNat_inj, p.limb_restoreElement within limb_lt]
  omega

theorem copied_eq_iff : p.copied = p.words ↔ ∀ w ∈ p.words, ∀ j < 4, (limb w j).toNat < 256 := by
  constructor
  · intro same w mem
    obtain ⟨i, within, rfl⟩ := List.getElem_of_mem mem
    apply (p.restoreElement_eq_iff within).mp
    have at_i : p.copied[i]? = p.words[i]? := by rw [same]
    rw [copied, List.getElem?_map, List.getElem?_range within, List.getElem?_eq_getElem within] at at_i
    exact Option.some.inj at_i
  · intro small
    apply List.ext_getElem
    · rw [copied, List.length_map, List.length_range]
    · intro i _ within
      have := (p.restoreElement_eq_iff within).mpr (small _ (List.getElem_mem within))
      simpa only [copied, List.getElem_map, List.getElem_range] using this

/-- **When the interpreter goes on from the state that compiled code was in**: if no limb of a word on
the stack needs more than a byte, the return data is empty, and the message has the gas that is left. -/
theorem fallback_exact_iff : (p.code.fallbackToInterpreter p.targetPC).map Context.state = some p.state ↔
      (∀ w ∈ p.words, ∀ j < 4, (limb w j).toNat < 256) ∧ p.code.inst.returnData = [] ∧ p.message.gas = p.code.gas := by
  rw [p.fallback_state, ← p.copied_eq_iff]
  constructor
  · intro same
    have eq := Option.some.inj same
    exact ⟨congrArg State.stack eq, (congrArg State.returnData eq).symm, congrArg State.gas eq⟩
  · rintro ⟨stack, returnData, gas⟩
    rw [stack, gas, ← returnData]
    rfl

/-- A fallback at the first opcode of a one-byte code, with one word on the stack. -/
def single (w : Word) : FallbackPoint :=
  let message : Message :=
    { kind := .call, flags := 0, depth := 0, gas := 21000, recipient := 0, sender := 0, input := [],
      value := 0, salt := 0, codeAddress := 0 }
  let stack := [w].foldl RuntimeStack.stackPush ⟨List.replicate evmStackCapacity 0, 0⟩
  { code :=
      { inst :=
          { codeSize := 1, gas := 21000, gasRefund := 0, messageStack := [message],
            gasRefundStack := [0], memory := none, memorySize := 0, memoryStack := [],
            returnData := [], evmStack := stack.buffer, evmStackSize := 0 }
        stackSizeVar := stack.size
        gasRegVar := none }
    targetPC := 0
    message := message
    words := [w]
    running := rfl
    holds := RuntimeStack.holds_pushes List.length_replicate [w] (show 1 ≤ 1024 by omega)
    allocated := Nat.zero_le _
    inside := Nat.zero_lt_one }

/-- A word that is a byte survives. -/
theorem fallback_exact_byte :
    ((single 255).code.fallbackToInterpreter 0).map Context.state = some (single 255).state := by
  refine (single 255).fallback_exact_iff.mpr ⟨?_, rfl, rfl⟩
  intro w mem
  obtain rfl := List.mem_singleton.mp mem
  decide

/-- The word 256 arrives as another one. -/
theorem fallback_loses_256 :
    ((single 256).code.fallbackToInterpreter 0).map Context.state ≠ some (single 256).state := by
  intro same
  have arrives := (congrArg (Option.map State.stack) same).symm.trans
    (congrArg (Option.map State.stack) (single 256).fallback_state)
  have small := (single 256).copied_eq_iff.mp (Option.some.inj arrives).symm 256
    (List.mem_singleton.mpr rfl) 0 (by omega)
  exact absurd small (by decide)

end FallbackPoint

end Dtvm.Jit
