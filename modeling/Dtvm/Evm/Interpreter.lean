import Dtvm.Evm.Cache

/-!
# The interpreter loop

`BaseInterpreter::interpret`. Where a gas chunk starts and the frame can pay for the whole chunk, the loop
collects its cost once and runs its opcodes without charging (the computed-goto fast path); anywhere else it runs
one opcode and charges for it first (the switch).

The loop is cut off after a number of turns: a run that ends with a value has used its turns up, and `Ends` says
that some number is enough. A context holds one frame while the interpreter runs, so ending a frame ends the run.
-/

namespace Dtvm

open Effect

/-- What a run reads of its module and instance: the instruction tables of EVMC, the frame's
environment and the module's cache. -/
structure Setup where
  tables : InstructionTables
  env : Env
  cache : BytecodeCache

namespace Setup

/-- A frame's code, loaded: the cache is built of the code the frame runs, by the revision of its module. The
revision of `env` is that of the instance. -/
def load (tables : InstructionTables) (rev : Revision) (env : Env) (code : Bytecode) : Setup where
  tables := tables
  env := { env with code := code.bytes }
  cache := buildBytecodeCache tables rev code

variable (s : Setup)

/-- `NamesTable[b] != NULL`. -/
def defined (b : UInt8) : Bool := s.tables.defined s.env.rev b

/-- `MetricsTable[b].gas_cost`, as an unsigned number. -/
def baseCost (b : UInt8) : Nat := s.tables.cost64 s.env.rev b

/-- The opcode at `pc` has run: go to the next one, or stay where the jump has gone. -/
def advance (pc : Nat) : Flow → Code Unit
  | .next => Code.setPc (pc + (opAt s.env.code pc).len)
  | .jump => pure ()

/-- One opcode of the fast path: `cgoto_tables` sends what the revision lacks and what the table
does not list to `TARGET_UNDEFINED`. -/
def fastOp (b : UInt8) : Code Flow :=
  if s.defined b = false then Code.fail .undefinedInstruction
  else match Opcode.ofByte b with
    | .unknown => Code.fail .undefinedInstruction
    | .push0 =>
      if s.env.rev < .shanghai then Code.fail .undefinedInstruction
      else Opcode.exec s.env s.cache.maps .push0
    | o => o.exec s.env s.cache.maps

/-- The fast path from `DISPATCH_NEXT` on: opcodes up to the chunk's end or a taken jump. The
program counter grows with every opcode, so the chunk's length in fuel is enough. -/
def chunkLoop (stop : Nat) : Nat → Code Unit
  | 0 => pure ()
  | fuel + 1 => do
    let here ← Code.pc
    if here ≥ stop then pure ()
    else do
      let flow ← s.fastOp (byteAt s.env.code here)
      s.advance here flow
      match flow with
      | .next => chunkLoop stop fuel
      | .jump => pure ()

/-- One opcode of the switch, base gas first. `STOP` and `INVALID` are not charged. -/
def slowOp (b : UInt8) : Code Flow :=
  if s.defined b = false then Code.fail .undefinedInstruction
  else match Opcode.ofByte b with
    | .stop => Opcode.exec s.env s.cache.maps .stop
    | .invalid => Opcode.exec s.env s.cache.maps .invalid
    | .unknown => Opcode.exec s.env s.cache.maps .unknown
    | o => do
      Code.charge (s.baseCost b)
      o.exec s.env s.cache.maps

/-- One opcode by the switch, and the program counter moved on. -/
def slowStep (here : Nat) : Code Unit := do
  let flow ← s.slowOp (byteAt s.env.code here)
  s.advance here flow

def fastChunk (here : Nat) : Code Unit := do
  Code.charge (s.cache.gasChunkCost here)
  s.chunkLoop (s.cache.gasChunkEnd here) (s.cache.gasChunkEnd here - here)

/-- The body of the `while` loop. -/
def round (here : Nat) : Code Unit :=
  if s.cache.gasChunkEnd here > here then do
    let g ← Code.gas
    if g ≥ s.cache.gasChunkCost here then s.fastChunk here else s.slowStep here
  else s.slowStep here

/-- One turn of `while (Frame->Pc < CodeSize)`, and the implicit `STOP` after it. -/
def turn : Code Unit := do
  let here ← Code.pc
  if here < s.env.code.length then s.round here else Handler.stop

def interpret : Nat → Code Unit
  | 0 => pure ()
  | turns + 1 => do
    s.turn
    interpret turns

/-! ## Properties of the loop -/

/-- A property of programs that the operations of the loop itself have, and sequences of programs that have
it. -/
structure Carries (s : Setup) (P : ∀ {α : Type}, Code α → Prop) : Prop where
  exec : ∀ o : Opcode, P (o.exec s.env s.cache.maps)
  bind : ∀ {α β : Type} {p : Code α} {f : α → Code β}, P p → (∀ a, P (f a)) → P (p >>= f)
  done : P (pure () : Code Unit) := by infer_instance
  fail : P (Code.fail .undefinedInstruction : Code Flow) := by infer_instance
  pc : P Code.pc := by infer_instance
  setPc : ∀ n, P (Code.setPc n) := by infer_instance
  gas : P Code.gas := by infer_instance
  charge : ∀ n, P (Code.charge n) := by infer_instance
  stop : P Handler.stop := by infer_instance

namespace Carries

variable {s} {P : ∀ {α : Type}, Code α → Prop} (h : s.Carries P)

include h

theorem fastOp (b : UInt8) : P (s.fastOp b) := by
  unfold Setup.fastOp
  split
  · exact h.fail
  · split
    · exact h.fail
    · split
      · exact h.fail
      · exact h.exec _
    · exact h.exec _

theorem slowOp (b : UInt8) : P (s.slowOp b) := by
  unfold Setup.slowOp
  split
  · exact h.fail
  · split
    · exact h.exec _
    · exact h.exec _
    · exact h.exec _
    · exact h.bind (h.charge _) fun _ => h.exec _

theorem advance (pc : Nat) (flow : Flow) : P (s.advance pc flow) := by
  cases flow with
  | next => exact h.setPc _
  | jump => exact h.done

theorem slowStep (here : Nat) : P (s.slowStep here) := h.bind (h.slowOp _) fun flow => h.advance here flow

theorem chunkLoop (stop : Nat) : ∀ fuel, P (s.chunkLoop stop fuel)
  | 0 => h.done
  | fuel + 1 => by
    refine h.bind h.pc fun here => ?_
    split
    · exact h.done
    · refine h.bind (h.fastOp _) fun flow => h.bind (h.advance here flow) fun _ => ?_
      cases flow with
      | next => exact chunkLoop stop fuel
      | jump => exact h.done

theorem round (here : Nat) : P (s.round here) := by
  unfold Setup.round
  split
  · refine h.bind h.gas fun g => ?_
    split
    · exact h.bind (h.charge _) fun _ => h.chunkLoop _ _
    · exact h.slowStep here
  · exact h.slowStep here

/-- **The loop has the properties of its opcodes.** -/
theorem interpret : ∀ turns, P (s.interpret turns)
  | 0 => h.done
  | turns + 1 => by
    refine h.bind (h.bind h.pc fun here => ?_) fun _ => interpret turns
    split
    · exact h.round here
    · exact h.stop

end Carries

end Setup

structure ExeResult where
  status : Status
  gasLeft : Nat
  refund : Int
  output : Bytes
deriving DecidableEq, Repr

/-- The result of a frame. A failure gives up the gas, takes the refund counter back to its value
at entry and drops the return data (`handleExecutionStatus`). -/
def exeResult (refundSnapshot : Int) (m : Machine) : Halt → ExeResult
  | .fail s => ⟨s, 0, refundSnapshot, []⟩
  | .finish s => ⟨s, m.gas, m.refund, m.returnData⟩

/-- The interpreter, started on `m`, comes to an end: how it halts, and the machine then. -/
def Ends (host : Host) (s : Setup) (m : Machine) (h : Halt) (m' : Machine) : Prop :=
  ∃ turns, (s.interpret turns).run (Machine.handle host) m = (.error h, m')

end Dtvm
