import Dtvm.Evm.Types
import Dtvm.Effect.Budget

/-!
# The machine a frame runs on

`EVMFrame`, with the parts of `InterpreterExecContext` and `EVMInstance` that opcode handlers reach, as one state
(`Machine`). What a handler does to it are the operations of a signature (`FrameOp`, `Machine.handle`); a handler
is a program over it. Every way out of a frame is a stop of the run (`Halt`).

The operand stack is an array of slots and a stack pointer. Popping leaves the slot's word behind, so what an
earlier call left above the pointer is part of the state. The operations on its cells (`pop`, `push`, `dup`,
`swap`) check nothing that a handler could rely on: whether there are operands and room is asked by operations of
their own (`need`, `room`), where the handler has them. A cell that is not there is a fault of the machine, with
the status `internalError`, where the source throws or leaves the array; that no frame comes to it is a theorem.
-/

namespace Dtvm

open Effect

def maxStack : Nat := 1024

/-- How a frame stops: with the status an opcode set, or with `success` or `revert` and the
return data. -/
inductive Halt where
  | fail (s : Status)
  | finish (s : Status)
deriving DecidableEq, Repr

/-- `Frame->Stack` and `Frame->Sp`. -/
structure Stack where
  slots : Nat → Word
  sp : Nat

namespace Stack

/-- The word `k` below the top. -/
def peek (s : Stack) (k : Nat) : Word := s.slots (s.sp - 1 - k)

/-- Write the word `k` below the top. -/
def poke (s : Stack) (k : Nat) (v : Word) : Stack :=
  { s with slots := fun i => if i = s.sp - 1 - k then v else s.slots i }

def drop (s : Stack) (n : Nat) : Stack := { s with sp := s.sp - n }

def push (s : Stack) (v : Word) : Stack :=
  { slots := fun i => if i = s.sp then v else s.slots i, sp := s.sp + 1 }

end Stack

/-- What a running frame can change. `refund` is the instance's counter, `returnData` the
context's buffer, `trace` the host calls made so far. -/
structure Machine where
  stack : Stack
  memory : Bytes
  gas : Nat
  pc : Nat
  mtx : TxContext
  returnData : Bytes
  refund : Int
  trace : List HostEvent

inductive FrameOp where
  /-- `EVM_STACK_CHECK(Frame, n)`. -/
  | need (n : Nat)
  /-- `n` times `Frame->pop()`, or reads of `Stack[Sp - 1]` down and `Sp -= n`. -/
  | pop (n : Nat)
  /-- `EVM_REQUIRE_STACK_SPACE(Frame, 1)`. -/
  | room
  /-- `Frame->push(v)`, or `Stack[Sp++] = v`. -/
  | push (v : Word)
  /-- `Stack[Sp++] = V` for the word `V` that lies `k` below the top. -/
  | dup (k : Nat)
  /-- The exchange of the top with the word `n` below it. -/
  | swap (n : Nat)
  /-- Read `Frame->Msg.gas`. -/
  | gas
  /-- `chargeGas`: out of gas, or subtract. -/
  | charge (n : Nat)
  /-- `Frame->Msg.gas += n`. -/
  | credit (n : Nat)
  /-- `Frame->Memory.size()`. -/
  | memorySize
  /-- `Frame->Memory.resize(n, 0)`, for a size that does not shrink it. -/
  | memoryResize (n : Nat)
  /-- Read bytes of `Frame->Memory`. -/
  | memoryRead (offset size : Nat)
  /-- `memcpy` or `memset` into `Frame->Memory`. -/
  | memoryWrite (offset : Nat) (bytes : Bytes)
  /-- `Context->getReturnData()`. -/
  | returnData
  /-- `Context->setReturnData(bytes)`, `Context->clearReturnData()`. -/
  | setReturnData (bytes : Bytes)
  /-- `Context->getInstance()->addGasRefund(n)`. -/
  | addRefund (n : Int)
  /-- `Context->getInstance()->setGasRefund(n)`. -/
  | setRefund (n : Int)
  /-- Read `Frame->MTx`. -/
  | mtx
  /-- Write `Frame->MTx`. -/
  | setMtx (t : TxContext)
  /-- Read `Frame->Pc`. -/
  | pc
  /-- Write `Frame->Pc`. -/
  | setPc (n : Nat)
  /-- A call to the host. -/
  | host (r : HostReq)
  /-- Stop. -/
  | halt (h : Halt)

/-- The answers. `pop n` answers its words from the top of the stack down. -/
@[reducible] def FrameOp.Ans : FrameOp → Type
  | .pop n => Fin n → Word
  | .gas => Nat
  | .memorySize => Nat
  | .memoryRead _ _ => Bytes
  | .returnData => Bytes
  | .mtx => TxContext
  | .pc => Nat
  | .host r => r.Ans
  | .halt _ => Empty
  | _ => Unit

@[reducible] def frameSig : Signature := ⟨FrameOp, FrameOp.Ans⟩

abbrev Code (α : Type) := Program frameSig α

section Within

variable {may : FrameOp → Prop} {α β : Type}

instance (a : α) : Program.Within may (pure a : Code α) := .pure a

instance (p : Code α) (f : α → Code β) [hp : Program.Within may p]
    [hf : ∀ a, Program.Within may (f a)] : Program.Within may (p >>= f) := hp.bind hf

instance (c : Prop) [Decidable c] (p q : Code α) [hp : Program.Within may p]
    [hq : Program.Within may q] : Program.Within may (if c then p else q) := hp.ite hq

end Within

def overwrite (buffer : Bytes) (offset : Nat) (bytes : Bytes) : Bytes :=
  buffer.take offset ++ bytes ++ buffer.drop (offset + bytes.length)

namespace Machine

def withGas (m : Machine) (g : Nat) : Machine := { m with gas := g }

def handle (host : Host) : Program.Handler frameSig Machine Halt
  | .need n, m =>
    if m.stack.sp < n then (.error (.fail .stackUnderflow), m) else (.ok (), m)
  | .pop n, m =>
    if m.stack.sp < n then (.error (.fail .internalError), m)
    else (.ok fun k => m.stack.peek k, { m with stack := m.stack.drop n })
  | .room, m =>
    if m.stack.sp + 1 > maxStack then (.error (.fail .stackOverflow), m) else (.ok (), m)
  | .push v, m =>
    if m.stack.sp + 1 > maxStack then (.error (.fail .internalError), m)
    else (.ok (), { m with stack := m.stack.push v })
  | .dup k, m =>
    if m.stack.sp < k + 1 ∨ m.stack.sp + 1 > maxStack then (.error (.fail .internalError), m)
    else (.ok (), { m with stack := m.stack.push (m.stack.peek k) })
  | .swap n, m =>
    if m.stack.sp < n + 1 then (.error (.fail .internalError), m)
    else (.ok (), { m with
      stack := (m.stack.poke 0 (m.stack.peek n)).poke n (m.stack.peek 0) })
  | .gas, m => (.ok m.gas, m)
  | .charge n, m =>
    if m.gas < n then (.error (.fail .outOfGas), m) else (.ok (), { m with gas := m.gas - n })
  | .credit n, m => (.ok (), { m with gas := m.gas + n })
  | .memorySize, m => (.ok m.memory.length, m)
  | .memoryResize n, m =>
    (.ok (), { m with memory := m.memory ++ List.replicate (n - m.memory.length) 0 })
  | .memoryRead offset size, m => (.ok ((m.memory.drop offset).take size), m)
  | .memoryWrite offset bytes, m => (.ok (), { m with memory := overwrite m.memory offset bytes })
  | .returnData, m => (.ok m.returnData, m)
  | .setReturnData bytes, m => (.ok (), { m with returnData := bytes })
  | .addRefund n, m => (.ok (), { m with refund := m.refund + n })
  | .setRefund n, m => (.ok (), { m with refund := n })
  | .mtx, m => (.ok m.mtx, m)
  | .setMtx t, m => (.ok (), { m with mtx := t })
  | .pc, m => (.ok m.pc, m)
  | .setPc n, m => (.ok (), { m with pc := n })
  | .host r, m =>
    let a := host m.trace r
    (.ok a, { m with trace := m.trace ++ [⟨r, a⟩] })
  | .halt h, m => (.error h, m)

theorem handle_trace (host : Host) {o : FrameOp} (own : ∀ r, o ≠ .host r) (m : Machine) :
    (handle host o m).2.trace = m.trace := by
  cases o with
  | host r => exact absurd rfl (own r)
  | need | pop | room | push | dup | swap | charge =>
    simp only [handle]
    split <;> rfl
  | _ => rfl

end Machine

/-! ## Operations as programs -/

namespace Code

-- the numbers of operands, for literals in `Fin n`
instance neZero_one : NeZero 1 := ⟨Nat.one_ne_zero⟩
instance neZero_two : NeZero 2 := ⟨Nat.succ_ne_zero 1⟩
instance neZero_three : NeZero 3 := ⟨Nat.succ_ne_zero 2⟩
instance neZero_four : NeZero 4 := ⟨Nat.succ_ne_zero 3⟩
instance neZero_six : NeZero 6 := ⟨Nat.succ_ne_zero 5⟩
instance neZero_seven : NeZero 7 := ⟨Nat.succ_ne_zero 6⟩

abbrev need (n : Nat) : Code Unit := Program.perform (S := frameSig) (.need n)
abbrev pop (n : Nat) : Code (Fin n → Word) := Program.perform (S := frameSig) (.pop n)
abbrev room : Code Unit := Program.perform (S := frameSig) .room
abbrev push (v : Word) : Code Unit := Program.perform (S := frameSig) (.push v)
abbrev gas : Code Nat := Program.perform (S := frameSig) .gas
abbrev charge (n : Nat) : Code Unit := Program.perform (S := frameSig) (.charge n)
abbrev credit (n : Nat) : Code Unit := Program.perform (S := frameSig) (.credit n)
abbrev memorySize : Code Nat := Program.perform (S := frameSig) .memorySize
abbrev memoryResize (n : Nat) : Code Unit := Program.perform (S := frameSig) (.memoryResize n)
abbrev memoryRead (offset size : Nat) : Code Bytes :=
  Program.perform (S := frameSig) (.memoryRead offset size)
abbrev memoryWrite (offset : Nat) (bytes : Bytes) : Code Unit :=
  Program.perform (S := frameSig) (.memoryWrite offset bytes)
abbrev returnData : Code Bytes := Program.perform (S := frameSig) .returnData
abbrev setReturnData (bytes : Bytes) : Code Unit := Program.perform (S := frameSig) (.setReturnData bytes)
abbrev addRefund (n : Int) : Code Unit := Program.perform (S := frameSig) (.addRefund n)
abbrev setRefund (n : Int) : Code Unit := Program.perform (S := frameSig) (.setRefund n)
abbrev mtx : Code TxContext := Program.perform (S := frameSig) .mtx
abbrev setMtx (t : TxContext) : Code Unit := Program.perform (S := frameSig) (.setMtx t)
abbrev pc : Code Nat := Program.perform (S := frameSig) .pc
abbrev setPc (n : Nat) : Code Unit := Program.perform (S := frameSig) (.setPc n)
abbrev host (r : HostReq) : Code r.Ans := Program.perform (S := frameSig) (.host r)

/-- `EVM_STACK_CHECK(Frame, n)`, then `n` times `Frame->pop()`. -/
def operands (n : Nat) : Code (Fin n → Word) := do
  need n
  pop n

/-- `EVM_REQUIRE_STACK_SPACE(Frame, 1)`, then `Frame->push(v)`. -/
def pushChecked (v : Word) : Code Unit := do
  room
  push v

/-- `executeDupOpcodeNoGas`, for the word `k` below the top. -/
def dup (k : Nat) : Code Unit := do
  need (k + 1)
  room
  Program.perform (S := frameSig) (.dup k)

/-- `executeSwapOpcodeNoGas`. -/
def swap (n : Nat) : Code Unit := do
  need (n + 1)
  Program.perform (S := frameSig) (.swap n)

def when (c : Prop) [Decidable c] (p : Code Unit) : Code Unit := if c then p else pure ()

def fail {α : Type} (s : Status) : Code α :=
  Program.step (S := frameSig) (.halt (.fail s)) fun e : Empty => e.elim

def finish {α : Type} (s : Status) : Code α :=
  Program.step (S := frameSig) (.halt (.finish s)) fun e : Empty => e.elim

/-! ### What they perform

An operation is within what computing allows of it. -/

section Within

open Program

variable {may : FrameOp → Prop}

instance (c : Prop) [Decidable c] (p : Code Unit) [Within may p] : Within may (when c p) := by
  unfold Code.when; infer_instance

-- the type of the answer is known by the operation
instance (o : FrameOp) [h : Holds (may o)] : @Within frameSig (no_index o.Ans) may (perform (S := frameSig) o) :=
  .perform h.holds

instance (n : Nat) [Holds (may (.need n))] [Holds (may (.pop n))] : Within may (operands n) := by
  unfold operands; infer_instance
instance (v : Word) [Holds (may .room)] [Holds (may (.push v))] : Within may (pushChecked v) := by
  unfold pushChecked; infer_instance
instance (k : Nat) [Holds (may (.need (k + 1)))] [Holds (may .room)] [Holds (may (.dup k))] : Within may (dup k) := by
  unfold dup; infer_instance
instance (n : Nat) [Holds (may (.need (n + 1)))] [Holds (may (.swap n))] : Within may (swap n) := by
  unfold swap; infer_instance
instance {α : Type} (st : Status) [h : Holds (may (.halt (.fail st)))] : Within may (fail st : Code α) :=
  .step h.holds fun e : Empty => e.elim
instance {α : Type} (st : Status) [h : Holds (may (.halt (.finish st)))] :
    Within may (finish st : Code α) := .step h.holds fun e : Empty => e.elim

end Within

end Code

/-! ## Running one operation -/

namespace Code

variable (host : Host) (m : Machine)

@[simp] theorem run_need (n : Nat) : (Code.need n).run (Machine.handle host) m =
    if m.stack.sp < n then (.error (.fail .stackUnderflow), m) else (.ok (), m) :=
  Program.run_perform (S := frameSig) (Machine.handle host) (.need n) m

@[simp] theorem run_room : Code.room.run (Machine.handle host) m =
    if m.stack.sp + 1 > maxStack then (.error (.fail .stackOverflow), m) else (.ok (), m) :=
  Program.run_perform (S := frameSig) (Machine.handle host) .room m

@[simp] theorem run_push (v : Word) : (Code.push v).run (Machine.handle host) m =
    if m.stack.sp + 1 > maxStack then (.error (.fail .internalError), m)
    else (.ok (), { m with stack := m.stack.push v }) :=
  Program.run_perform (S := frameSig) (Machine.handle host) (.push v) m

@[simp] theorem run_pop (n : Nat) : (Code.pop n).run (Machine.handle host) m =
    if m.stack.sp < n then (.error (.fail .internalError), m)
    else (.ok fun k => m.stack.peek k, { m with stack := m.stack.drop n }) :=
  Program.run_perform (S := frameSig) (Machine.handle host) (.pop n) m

@[simp] theorem run_operands (n : Nat) : (Code.operands n).run (Machine.handle host) m =
    if m.stack.sp < n then (.error (.fail .stackUnderflow), m)
    else (.ok fun k => m.stack.peek k, { m with stack := m.stack.drop n }) := by
  rw [Code.operands, Program.run_bind, run_need]
  by_cases short : m.stack.sp < n
  · rw [if_pos short, if_pos short]
  · rw [if_neg short, if_neg short]
    exact (run_pop host m n).trans (if_neg short)

theorem run_pushChecked (v : Word) : (Code.pushChecked v).run (Machine.handle host) m =
    if m.stack.sp + 1 > maxStack then (.error (.fail .stackOverflow), m)
    else (.ok (), { m with stack := m.stack.push v }) := by
  by_cases full : m.stack.sp + 1 > maxStack <;> simp [Code.pushChecked, Program.run_bind, full]

theorem run_dup (k : Nat) : (Code.dup k).run (Machine.handle host) m =
    if m.stack.sp < k + 1 then (.error (.fail .stackUnderflow), m)
    else if m.stack.sp + 1 > maxStack then (.error (.fail .stackOverflow), m)
    else (.ok (), { m with stack := m.stack.push (m.stack.peek k) }) := by
  by_cases short : m.stack.sp < k + 1
  · simp [Code.dup, Program.run_bind, short]
  · by_cases full : m.stack.sp + 1 > maxStack
    · simp [Code.dup, Program.run_bind, short, full]
    · simp only [Code.dup, Program.run_bind, run_need, run_room, if_neg short, if_neg full]
      exact (Program.run_perform (S := frameSig) (Machine.handle host) (.dup k) m).trans
        (if_neg (not_or.mpr ⟨short, full⟩))

theorem run_swap (n : Nat) : (Code.swap n).run (Machine.handle host) m =
    if m.stack.sp < n + 1 then (.error (.fail .stackUnderflow), m)
    else (.ok (), { m with stack := (m.stack.poke 0 (m.stack.peek n)).poke n (m.stack.peek 0) }) := by
  by_cases short : m.stack.sp < n + 1
  · simp [Code.swap, Program.run_bind, short]
  · simp only [Code.swap, Program.run_bind, run_need, if_neg short]
    exact (Program.run_perform (S := frameSig) (Machine.handle host) (.swap n) m).trans (if_neg short)

@[simp] theorem run_gas : Code.gas.run (Machine.handle host) m = (.ok m.gas, m) := rfl

@[simp] theorem run_charge (n : Nat) : (Code.charge n).run (Machine.handle host) m =
    if m.gas < n then (.error (.fail .outOfGas), m) else (.ok (), { m with gas := m.gas - n }) :=
  Program.run_perform (S := frameSig) (Machine.handle host) (.charge n) m

@[simp] theorem run_memorySize : Code.memorySize.run (Machine.handle host) m = (.ok m.memory.length, m) := rfl

@[simp] theorem run_memoryResize (n : Nat) : (Code.memoryResize n).run (Machine.handle host) m =
    (.ok (), { m with memory := m.memory ++ List.replicate (n - m.memory.length) 0 }) := rfl

@[simp] theorem run_memoryRead (offset size : Nat) : (Code.memoryRead offset size).run (Machine.handle host) m =
      (.ok ((m.memory.drop offset).take size), m) := rfl

@[simp] theorem run_memoryWrite (offset : Nat) (bytes : Bytes) :
    (Code.memoryWrite offset bytes).run (Machine.handle host) m =
      (.ok (), { m with memory := overwrite m.memory offset bytes }) := rfl

@[simp] theorem run_setReturnData (bytes : Bytes) : (Code.setReturnData bytes).run (Machine.handle host) m =
      (.ok (), { m with returnData := bytes }) := rfl

@[simp] theorem run_addRefund (n : Int) : (Code.addRefund n).run (Machine.handle host) m =
    (.ok (), { m with refund := m.refund + n }) := rfl

@[simp] theorem run_host (r : HostReq) : (Code.host r).run (Machine.handle host) m =
    (.ok (host m.trace r), { m with trace := m.trace ++ [⟨r, host m.trace r⟩] }) := rfl

@[simp] theorem run_fail {α : Type} (s : Status) :
    (Code.fail s : Code α).run (Machine.handle host) m = (.error (.fail s), m) := rfl

end Code

end Dtvm
