import Dtvm.Wasm.Decoders
import Dtvm.Wasm.Interpreter

/-!
# What a turn of the interpreter can do

An instruction that has been decoded moves the interpreter (`Move`) or stops it (`Failure`), and which of them
is a matter of how many cells there are on the value stack and how many blocks are open. Both are said once
for all instructions (`exec_moves`): what values there are in the cells does not come into it.
-/

namespace Dtvm.Wasm

open Effect

/-! ## Cells -/

/-- The cells that an instruction pops and pushes when it goes on to the next one. -/
def Instr.cells (m : Module) (f : FunctionInstance) : Instr → Option (Nat × Nat)
  | .nop => some (0, 0)
  | .drop wide => some (if wide then 2 else 1, 0)
  | .select wide => some (if wide then (5, 2) else (3, 1))
  | .getLocal idx => (f.getLocalType idx).map fun t => (0, t.cellNum)
  | .setLocal idx => (f.getLocalType idx).map fun t => (t.cellNum, 0)
  | .teeLocal idx => (f.getLocalType idx).map fun t => (t.cellNum, t.cellNum)
  | .getGlobal idx => m.globalTypes[idx]?.map fun t => (0, t.cellNum)
  | .setGlobal idx => m.globalTypes[idx]?.map fun t => (t.cellNum, 0)
  | .load op _ _ => some (1, op.result.cellNum)
  | .store op _ _ => some (1 + op.operand.cellNum, 0)
  | .memorySize => some (0, 1)
  | .memoryGrow => some (1, 1)
  | .i32Const _ => some (0, 1)
  | .i64Const _ => some (0, 2)
  | .f32Const _ => some (0, 1)
  | .f64Const _ => some (0, 2)
  | .numeric op => some (match op.effect with | none => (0, 0) | some (operands, result) => (operands.sum, result))
  | _ => none

theorem Instr.plain_of_cells {m : Module} {f : FunctionInstance} {i : Instr} {c : Nat × Nat}
    (h : i.cells m f = some c) : i.plain = true := by
  cases i with
  | block | loop | «if» | «else» | «end» => cases h
  | _ => rfl

/-- The cells that an instruction pops before it branches, opens a block or calls. -/
def Instr.tested : Instr → Nat
  | .if _ | .brIf _ | .brTable _ | .callIndirect _ => 1
  | _ => 0

def Instr.labels : Instr → List Nat
  | .br depth | .brIf depth => [depth]
  | .brTable depths => depths
  | _ => []

def Instr.local? : Instr → Option Nat
  | .getLocal idx | .setLocal idx | .teeLocal idx => some idx
  | _ => none

/-- Whether an instruction reads or writes a local or a global. -/
def Instr.variable? : Instr → Bool
  | .getLocal _ | .setLocal _ | .teeLocal _ | .getGlobal _ | .setGlobal _ => true
  | _ => false

def Instr.usesMemory : Instr → Bool
  | .load .. | .store .. | .memorySize | .memoryGrow => true
  | _ => false

/-! ## Moves -/

/-- A state whose frames are these; the rest but for the values is as it was. -/
structure Now (s : Interp) (frames : List InterpFrame) (s' : Interp) : Prop where
  frames : s'.frames = frames
  top : s'.top = s.top
  cache : s'.cache = s.cache
  memory : s'.inst.memory.isSome = s.inst.memory.isSome

/-- The frame after an instruction that pops and pushes so many cells. -/
def InterpFrame.goTo (fr : InterpFrame) (ip pops pushes : Nat) : InterpFrame :=
  { fr with ip := ip, valueStackPtr := fr.valueStackPtr - 4 * pops + 4 * pushes }

def InterpFrame.enterBlock (fr : InterpFrame) (ip tested target cellNum : Nat) (label : LabelType) : InterpFrame :=
  { fr.goTo ip tested 0 with ctrl := ⟨target, (fr.goTo ip tested 0).valueStackPtr, cellNum, label⟩ :: fr.ctrl }

def InterpFrame.branchTo (fr : InterpFrame) (block : BlockInfo) (outer : List BlockInfo) : InterpFrame :=
  { fr with
    ip := block.targetAddr
    ctrl := block :: outer
    valueStackPtr := if block.labelType = .loop then block.valueStackPtr else block.valueStackPtr + 4 * block.cellNum }

def InterpFrame.called (top funcIdx localPtr : Nat) (f : FunctionInstance) : InterpFrame :=
  let address := top + 4 * f.numLocalCells
  let ctrlBasePtr := address + sizeofInterpFrame
  let valueBasePtr := ctrlBasePtr + f.maxBlockDepth * sizeofBlockInfo
  { funcIdx, ip := 0, address, ctrlBasePtr, ctrlBoundary := valueBasePtr, valueBasePtr
    valueStackPtr := valueBasePtr, valueBoundary := valueBasePtr + f.maxStackSize, localPtr
    ctrl := [⟨f.code.length - 1, valueBasePtr, f.numReturnCells, .function⟩] }

def returnTo (f : FunctionInstance) : List InterpFrame → List InterpFrame
  | [] => []
  | caller :: outer =>
    { caller with
      valueStackPtr := caller.valueStackPtr - 4 * f.numParamCells + 4 * f.numReturnCells } :: outer

def Instr.Calls (m : Module) (i : Instr) (idx : Nat) (callee : FunctionInstance) : Prop :=
  m.functions[idx]? = some callee ∧
    (i = .call idx ∧ m.gasFuncIdx ≠ some idx ∨
      ∃ typeIdx, i = .callIndirect typeIdx ∧ m.types[typeIdx]? = some callee.type)

theorem Instr.Calls.plain {m : Module} {i : Instr} {idx : Nat} {callee : FunctionInstance}
    (h : i.Calls m idx callee) : i.plain = true := by
  obtain ⟨rfl, -⟩ | ⟨_, rfl, -⟩ := h.2
  · rfl
  · rfl

/-- The value that `br_table` looks at. -/
def Interp.tested (s : Interp) (fr : InterpFrame) : UInt32 :=
  (readCells s.cells (fr.valueStackPtr - 4 * 1) 1).headD 0

/-- Of the labels of `br_table`, whose immediates are at `ip`, one before the one that is taken has more than
two bytes. -/
def LongLabel (code : List UInt8) (ip idx : Nat) : Prop :=
  ∃ count n, decodeU32 (code.drop ip) = some (count, n) ∧
    ∃ size ∈ labelSizes (min count idx) (code.drop (ip + n)), 2 < size

section Moves

variable (m : Module) (f : FunctionInstance) (i : Instr) (next : Nat) (s : Interp) (fr : InterpFrame)
  (outer : List InterpFrame)

inductive Move : Interp → Prop
  | goes {s' : Interp} {pops pushes : Nat} (cells : i.cells m f = some (pops, pushes))
      (now : Now s (fr.goTo next pops pushes :: outer) s') : Move s'
  | loops {s' : Interp} {t : BlockType} (opens : i = .loop t)
      (now : Now s (fr.enterBlock next 0 next t.cellNum .loop :: outer) s') : Move s'
  | opens {s' : Interp} {t : BlockType} {label : LabelType} (opens : i.opens = some (label, t))
      (notLoop : label ≠ .loop) {elsePtr : Option Nat} {target : Nat} {cache : BlockAddrCache}
      (found : findBlockAddr fr.funcIdx f.code next s.cache = some (⟨elsePtr, some target⟩, cache))
      (now : Now { s with cache } (fr.enterBlock next i.tested target t.cellNum label :: outer) s') : Move s'
  | elses {s' : Interp} {t : BlockType} (opens : i = .if t) {elsePtr target : Nat} {cache : BlockAddrCache}
      (found : findBlockAddr fr.funcIdx f.code next s.cache = some (⟨some elsePtr, some target⟩, cache))
      (now : Now { s with cache } (fr.enterBlock (elsePtr + 1) 1 target t.cellNum .if :: outer) s') : Move s'
  | skips {s' : Interp} {t : BlockType} (opens : i = .if t) {target : Nat} {cache : BlockAddrCache}
      (found : findBlockAddr fr.funcIdx f.code next s.cache = some (⟨none, some target⟩, cache))
      (now : Now { s with cache } (fr.goTo (target + 1) 1 0 :: outer) s') : Move s'
  | «else» {s' : Interp} (isElse : i = .else) {block : BlockInfo} {blocks : List BlockInfo}
      (ctrl : fr.ctrl = block :: blocks) (now : Now s (fr.goTo block.targetAddr 0 0 :: outer) s') : Move s'
  | ends {s' : Interp} (isEnd : i = .end) (inner : 1 < fr.ctrl.length)
      (now : Now s ({ fr with ip := next, ctrl := fr.ctrl.tail } :: outer) s') : Move s'
  | branches {s' : Interp} {depth : Nat} (label : depth ∈ i.labels) {block : BlockInfo} {blocks : List BlockInfo}
      (ctrl : fr.ctrl.drop depth = block :: blocks) (now : Now s (fr.branchTo block blocks :: outer) s') : Move s'
  | falls {s' : Interp} {depth : Nat} (isBrIf : i = .brIf depth) (now : Now s (fr.goTo next 1 0 :: outer) s') :
      Move s'
  | charges {s' : Interp} {idx : Nat} (isGas : i = .call idx) (gas : m.gasFuncIdx = some idx)
      (now : Now s (fr.goTo next 2 0 :: outer) s') : Move s'
  | hosts {s' : Interp} {idx : Nat} {callee : FunctionInstance} (calls : i.Calls m idx callee)
      (native : callee.native = true)
      (now : Now s (fr.goTo next (i.tested + callee.numParamCells) callee.numReturnCells :: outer) s') : Move s'
  | calls {s' : Interp} {idx : Nat} {callee : FunctionInstance} (calls : i.Calls m idx callee)
      (native : callee.native = false) {localPtr : Nat}
      (locals : localPtr = (fr.goTo next i.tested 0).valueStackPtr - 4 * callee.numParamCells)
      (frames : s'.frames = .called s.top idx localPtr callee :: fr.goTo next i.tested 0 :: outer)
      (top : s'.top = (InterpFrame.called s.top idx localPtr callee).valueBoundary) (cache : s'.cache = s.cache)
      (memory : s'.inst.memory.isSome = s.inst.memory.isSome) : Move s'
  | returns {s' : Interp} (leaves : i = .return ∨ i = .end ∧ fr.ctrl.length ≤ 1)
      (frames : s'.frames = returnTo f outer) (top : s'.top = fr.address - 4 * f.numLocalCells)
      (cache : s'.cache = s.cache) (memory : s'.inst.memory.isSome = s.inst.memory.isSome) : Move s'

inductive Failure : Stop → Prop
  | trap (e : ErrorCode) : Failure (.trap e)
  | low {pops pushes : Nat} (cells : i.cells m f = some (pops, pushes))
      (short : fr.valueStackPtr < fr.valueBasePtr + 4 * pops) : Failure (.abort .valueStack)
  | high {pops pushes : Nat} (cells : i.cells m f = some (pops, pushes))
      (full : fr.valueBoundary < fr.valueStackPtr - 4 * pops + 4 * pushes) : Failure (.abort .valueStack)
  | locals {idx : Nat} {t : ValType} (isLocal : i.local? = some idx) (type : f.getLocalType idx = some t)
      (outside : fr.valueBasePtr < fr.localPtr + 4 * f.getLocalOffset idx + 4 * t.cellNum) :
      Failure (.abort .valueStack)
  | untested (short : fr.valueStackPtr < fr.valueBasePtr + 4 * i.tested) : Failure (.abort .valueStack)
  | gas {idx : Nat} (isGas : i = .call idx) (gas : m.gasFuncIdx = some idx)
      (short : fr.valueStackPtr < fr.valueBasePtr + 4 * 2) : Failure (.abort .valueStack)
  | hostLow {idx : Nat} {callee : FunctionInstance} (calls : i.Calls m idx callee)
      (native : callee.native = true)
      (short : fr.valueStackPtr < fr.valueBasePtr + 4 * (i.tested + callee.numParamCells)) :
      Failure (.abort .valueStack)
  | hostHigh {idx : Nat} {callee : FunctionInstance} (calls : i.Calls m idx callee)
      (native : callee.native = true)
      (full : fr.valueBoundary <
        fr.valueStackPtr - 4 * (i.tested + callee.numParamCells) + 4 * callee.numReturnCells) :
      Failure (.abort .valueStack)
  | full (opens : i.opens.isSome)
      (full : fr.ctrlBoundary < fr.ctrlBasePtr + sizeofBlockInfo * fr.ctrl.length) :
      Failure (.abort .controlStack)
  | deep {depth : Nat} (label : depth ∈ i.labels) (deep : fr.ctrl.length ≤ depth) : Failure (.abort .controlStack)
  | noBlock (isElse : i = .else) (none : fr.ctrl = []) : Failure (.abort .controlStack)
  | notFound (opens : i.opens.isSome)
      (notFound : ∀ e p cache, findBlockAddr fr.funcIdx f.code next s.cache ≠ some (⟨e, some p⟩, cache)) :
      Failure (.abort .leb)
  | longLabel {depths : List Nat} (isTable : i = .brTable depths)
      (operand : fr.valueBasePtr + 4 * 1 ≤ fr.valueStackPtr)
      (long : LongLabel f.code (fr.ip + 1) (s.tested fr).toNat) : Failure (.abort .leb)
  | noMemory (uses : i.usesMemory = true) (none : s.inst.memory = none) : Failure (.abort .noMemory)
  | unknownVariable (isVariable : i.variable? = true) (unknown : i.cells m f = none) : Failure (.abort .code)
  | unknownFunction {idx : Nat} (isCall : i = .call idx) (unknown : m.functions[idx]? = none) :
      Failure (.abort .code)
  | unknownType {idx : Nat} (isCall : i = .callIndirect idx) (unknown : m.types[idx]? = none) :
      Failure (.abort .code)
  | unknownElement {idx : UInt32} (element : idx ∈ m.elements) (set : idx ≠ 0xffffffff)
      (unknown : m.functions[idx.toNat]? = none) : Failure (.abort .code)

end Moves

/-! ## The operations on frames -/

namespace Now

variable {s s₁ : Interp} {fr : InterpFrame} {outer : List InterpFrame} {F : Stop → Prop}

theorem refl (h : s.frames = fr :: outer) : Now s (fr :: outer) s := ⟨h, rfl, rfl, rfl⟩

variable (now : Now s (fr :: outer) s₁)

include now

theorem frame : s₁.frame = .ok fr := Interp.frame_eq_ok.mpr (by rw [now.frames]; rfl)

theorem setFrame (fr' : InterpFrame) : Now s (fr' :: outer) (s₁.setFrame fr') where
  frames := by
    show fr' :: s₁.frames.tail = fr' :: outer
    rw [now.frames]
    rfl
  top := now.top
  cache := now.cache
  memory := now.memory

theorem setCells (cells : Nat → UInt32) :
    Now s (fr :: outer) { s₁ with cells } := ⟨now.frames, now.top, now.cache, now.memory⟩

theorem setIp (ip : Nat) : Yields (s₁.setIp ip) (Now s ({ fr with ip := ip } :: outer)) F := by
  rw [Interp.setIp, now.frame]
  exact now.setFrame _

theorem valuePush (values : List UInt32)
    (high : fr.valueBoundary < fr.valueStackPtr + 4 * values.length → F (.abort .valueStack)) :
    Yields (s₁.valuePush values)
      (Now s ({ fr with valueStackPtr := fr.valueStackPtr + 4 * values.length } :: outer)) F := by
  rw [Interp.valuePush, now.frame]
  exact yields_check high fun _ => (now.setFrame _).setCells _

theorem valuePop (n : Nat) (low : fr.valueStackPtr < fr.valueBasePtr + 4 * n → F (.abort .valueStack)) :
    Yields (s₁.valuePop n) (fun r => r.1.length = n ∧ fr.valueBasePtr + 4 * n ≤ fr.valueStackPtr ∧
      Now s ({ fr with valueStackPtr := fr.valueStackPtr - 4 * n } :: outer) r.2) F := by
  rw [Interp.valuePop, now.frame]
  refine yields_check low fun deep => ⟨?_, Nat.le_of_not_lt deep, now.setFrame _⟩
  rw [readCells, List.length_map, List.length_range]

theorem valuePop32 (low : fr.valueStackPtr < fr.valueBasePtr + 4 * 1 → F (.abort .valueStack)) : Yields s₁.valuePop32
      (fun r => Now s ({ fr with valueStackPtr := fr.valueStackPtr - 4 * 1 } :: outer) r.2) F :=
  yields_bind (now.valuePop 1 low) fun _ h => h.2.2

omit now in
theorem valuePops (ns : List Nat) (now : Now s (fr :: outer) s₁)
    (low : fr.valueStackPtr < fr.valueBasePtr + 4 * ns.sum → F (.abort .valueStack)) : Yields (Interp.valuePops ns s₁)
      (fun r => Now s ({ fr with valueStackPtr := fr.valueStackPtr - 4 * ns.sum } :: outer) r.2) F := by
  induction ns with
  | nil => exact now
  | cons n ns ih =>
    rw [List.sum_cons] at low ⊢
    refine yields_bind (ih fun short => low (by omega)) fun r now₁ => ?_
    refine yields_bind (now₁.valuePop n fun short => low (by dsimp only at short; omega)) fun r' popped => ?_
    have same : fr.valueStackPtr - 4 * ns.sum - 4 * n = fr.valueStackPtr - 4 * (n + ns.sum) := by omega
    rw [← same]
    exact popped.2.2

theorem blockPush (target cellNum : Nat) (label : LabelType)
    (full : fr.ctrlBoundary < fr.ctrlBasePtr + sizeofBlockInfo * fr.ctrl.length → F (.abort .controlStack)) :
    Yields (s₁.blockPush target cellNum label)
      (Now s ({ fr with ctrl := ⟨target, fr.valueStackPtr, cellNum, label⟩ :: fr.ctrl } :: outer)) F := by
  rw [Interp.blockPush, now.frame]
  exact yields_check full fun _ => now.setFrame _

theorem branch (depth : Nat) (deep : fr.ctrl.length ≤ depth → F (.abort .controlStack)) :
    Yields (s₁.branch depth) (fun s' => ∃ block blocks, fr.ctrl.drop depth = block :: blocks ∧
      Now s (fr.branchTo block blocks :: outer) s') F := by
  rw [Interp.branch, now.frame]
  dsimp only [bind, Except.bind]
  cases target : fr.ctrl.drop depth with
  | nil => exact deep (List.drop_eq_nil_iff.mp target)
  | cons block blocks =>
    refine yields_cases (fun loop => ?_) fun noLoop => ?_
    · refine ⟨block, blocks, rfl, ?_⟩
      rw [InterpFrame.branchTo, if_pos loop]
      exact now.setFrame _
    · refine ⟨block, blocks, rfl, ?_⟩
      rw [InterpFrame.branchTo, if_neg noLoop]
      exact (now.setFrame _).setCells _

theorem memory_yields (none : s.inst.memory = none → F (.abort .noMemory)) :
    Yields s₁.memory (fun mem => s₁.inst.memory = some mem) F := by
  have same := now.memory
  rw [Interp.memory]
  cases memory : s₁.inst.memory with
  | none =>
    rw [memory] at same
    exact none (Option.isSome_eq_false_iff.mp same.symm |> Option.isNone_iff_eq_none.mp)
  | some mem => exact yields_ok rfl

theorem loadOp (op : LoadOp) (offset : Nat) (trap : ∀ e, F (.trap e))
    (none : s.inst.memory = none → F (.abort .noMemory))
    (low : fr.valueStackPtr < fr.valueBasePtr + 4 * 1 → F (.abort .valueStack))
    (high : fr.valueBoundary < fr.valueStackPtr - 4 * 1 + 4 * op.result.cellNum → F (.abort .valueStack)) :
    Yields (s₁.loadOp op offset) (Now s ({ fr with
      valueStackPtr := fr.valueStackPtr - 4 * 1 + 4 * op.result.cellNum } :: outer)) F := by
  refine yields_bind (now.memory_yields none) fun mem _ => ?_
  refine yields_bind (now.valuePop32 low) fun r now₁ => yields_check (fun _ => trap _) fun _ => ?_
  have length (value : Nat) : (Interp.toCells op.result.cellNum value).length = op.result.cellNum := by
    rw [Interp.toCells, List.length_map, List.length_range]
  refine yields_mono (now₁.valuePush _ fun full => high ?_) (fun s' now₂ => ?_) fun _ h => h
  · rw [length] at full
    exact full
  · rw [length] at now₂
    exact now₂

theorem storeOp (op : StoreOp) (offset : Nat) (trap : ∀ e, F (.trap e))
    (none : s.inst.memory = none → F (.abort .noMemory))
    (low : fr.valueStackPtr < fr.valueBasePtr + 4 * (1 + op.operand.cellNum) → F (.abort .valueStack)) :
    Yields (s₁.storeOp op offset) (Now s ({ fr with
      valueStackPtr := fr.valueStackPtr - 4 * (1 + op.operand.cellNum) } :: outer)) F := by
  refine yields_bind (now.memory_yields none) fun mem memory => ?_
  refine yields_bind (now.valuePop _ fun short => low (by omega)) fun r ⟨_, _, now₁⟩ => ?_
  refine yields_bind (now₁.valuePop32 fun short => low (by dsimp only at short; omega)) fun r' now₂ => ?_
  refine yields_check (fun _ => trap _) fun _ => ?_
  have same : fr.valueStackPtr - 4 * op.operand.cellNum - 4 * 1 =
      fr.valueStackPtr - 4 * (1 + op.operand.cellNum) := by omega
  rw [← same]
  exact ⟨now₂.frames, now₂.top, now₂.cache, by rw [← now.memory, memory]; rfl⟩

theorem pushed {values : List UInt32} {n ptr : Nat} (length : values.length = n)
    (here : fr.valueStackPtr + 4 * n = ptr) (high : fr.valueBoundary < ptr → F (.abort .valueStack)) :
    Yields (s₁.valuePush values) (Now s ({ fr with valueStackPtr := ptr } :: outer)) F := by
  subst length here
  exact now.valuePush values high

theorem selectOp (n : Nat) (low : fr.valueStackPtr < fr.valueBasePtr + 4 * (1 + n + n) → F (.abort .valueStack))
    (high : fr.valueBoundary < fr.valueStackPtr - 4 * (1 + n + n) + 4 * n → F (.abort .valueStack)) :
    Yields (s₁.selectOp n) (Now s ({ fr with
      valueStackPtr := fr.valueStackPtr - 4 * (1 + n + n) + 4 * n } :: outer)) F := by
  refine yields_bind (now.valuePop32 fun short => low (by omega)) fun r now₁ => ?_
  refine yields_bind (now₁.valuePop n fun short => low (by dsimp only at short; omega)) fun r₁ ⟨length₁, _, now₂⟩ => ?_
  refine yields_bind (now₂.valuePop n fun short => low (by dsimp only at short; omega)) fun r₂ ⟨length₂, _, now₃⟩ => ?_
  refine now₃.pushed (n := n) ?_ (by dsimp only; omega) high
  split
  · exact length₂
  · exact length₁

theorem numericOp (num : Numerics) (op : NumericOp) (trap : ∀ e, F (.trap e))
    {pops pushes : Nat} (cells : (match op.effect with
      | none => (0, 0) | some (operands, result) => (operands.sum, result)) = (pops, pushes))
    (low : fr.valueStackPtr < fr.valueBasePtr + 4 * pops → F (.abort .valueStack))
    (high : fr.valueBoundary < fr.valueStackPtr - 4 * pops + 4 * pushes → F (.abort .valueStack)) :
    Yields (s₁.numericOp num op) (Now s ({ fr with
      valueStackPtr := fr.valueStackPtr - 4 * pops + 4 * pushes } :: outer)) F := by
  rw [Interp.numericOp]
  cases effect : op.effect with
  | none =>
    rw [effect] at cells
    obtain ⟨rfl, rfl⟩ := Prod.mk.inj cells
    exact now
  | some effect' =>
    rw [effect] at cells
    obtain ⟨rfl, rfl⟩ := Prod.mk.inj cells
    refine yields_bind (valuePops effect'.1 now low) fun r now₁ => ?_
    dsimp only
    cases num op r.1 with
    | error e => exact yields_error (trap e)
    | ok values =>
      exact now₁.pushed (by rw [List.length_map, List.length_range]) rfl high

theorem chargeGas (trap : ∀ e, F (.trap e))
    (low : fr.valueStackPtr < fr.valueBasePtr + 4 * 2 → F (.abort .valueStack)) :
    Yields s₁.chargeGas (Now s ({ fr with valueStackPtr := fr.valueStackPtr - 4 * 2 } :: outer)) F :=
  yields_bind (now.valuePop 2 low) fun _ ⟨_, _, now₁⟩ => yields_check (fun _ => trap _)
    fun _ => ⟨now₁.frames, now₁.top, now₁.cache, now₁.memory⟩

theorem memoryGrow (ans : Answer) (none : s.inst.memory = none → F (.abort .noMemory))
    (low : fr.valueStackPtr < fr.valueBasePtr + 4 * 1 → F (.abort .valueStack))
    (high : fr.valueBoundary < fr.valueStackPtr - 4 * 1 + 4 * 1 → F (.abort .valueStack)) :
    Yields (s₁.memoryGrow ans) (Now s ({ fr with
      valueStackPtr := fr.valueStackPtr - 4 * 1 + 4 * 1 } :: outer)) F := by
  refine yields_bind (now.memory_yields none) fun mem memory => ?_
  refine yields_bind (now.valuePop32 low) fun r now₁ => ?_
  refine yields_bind (now₁.pushed rfl rfl high) fun s' now₂ => ?_
  exact ⟨now₂.frames, now₂.top, now₂.cache, by rw [← now.memory, memory]; rfl⟩

theorem findBlock (code : List UInt8) (ip : Nat)
    (notFound : (∀ e p cache, findBlockAddr fr.funcIdx code ip s.cache ≠ some (⟨e, some p⟩, cache)) → F (.abort .leb)) :
    Yields (s₁.findBlock code ip) (fun r => ∃ cache,
      findBlockAddr fr.funcIdx code ip s.cache = some (⟨r.1, some r.2.1⟩, cache) ∧
      Now { s with cache } (fr :: outer) r.2.2) F := by
  rw [Interp.findBlock, now.frame]
  dsimp only [bind, Except.bind]
  rw [now.cache]
  split
  · rename_i elsePtr endPtr cache found
    exact ⟨cache, found, now.frames, now.top, rfl, now.memory⟩
  · rename_i none
    exact yields_error (notFound fun e p cache found => none e p cache found)

theorem callNative (f : FunctionInstance) (ans : Answer) (trap : ∀ e, F (.trap e))
    (low : fr.valueStackPtr < fr.valueBasePtr + 4 * f.numParamCells → F (.abort .valueStack))
    (high : fr.valueBoundary < fr.valueStackPtr - 4 * f.numParamCells + 4 * f.numReturnCells → F (.abort .valueStack)) :
    Yields (s₁.callNative f ans) (Now s ({ fr with
      valueStackPtr := fr.valueStackPtr - 4 * f.numParamCells + 4 * f.numReturnCells } :: outer)) F := by
  refine yields_bind (valuePops _ now low) fun r now₁ => ?_
  have now₂ (inst : Instance) (memory : inst.memory.isSome = r.2.inst.memory.isSome) :
      Now s ({ fr with valueStackPtr := fr.valueStackPtr - 4 * f.numParamCells } :: outer) { r.2 with inst } :=
    ⟨now₁.frames, now₁.top, now₁.cache, memory.trans now₁.memory⟩
  cases ans.outcome with
  | error e => exact yields_error (trap e)
  | ok values =>
    rw [FunctionInstance.numReturnCells] at high ⊢
    cases result : f.type.result with
    | none => exact now₂ _ Option.isSome_map
    | some t =>
      rw [result] at high
      refine (now₂ _ Option.isSome_map).pushed (n := numCells (Option.some t).toList) ?_ ?_ high
      · rw [List.length_map, List.length_range]
        rfl
      · rfl

theorem callFuncInst (idx : Nat) (f : FunctionInstance) (ans : Answer)
    (wasm : f.native = false) (trap : ∀ e, F (.trap e)) : Yields (s₁.callFuncInst idx f ans) (fun s' =>
      s'.frames = .called s.top idx (fr.valueStackPtr - 4 * f.numParamCells) f :: fr :: outer ∧
      s'.top = (InterpFrame.called s.top idx (fr.valueStackPtr - 4 * f.numParamCells) f).valueBoundary ∧
      s'.cache = s.cache ∧ s'.inst.memory.isSome = s.inst.memory.isSome) F := by
  rw [Interp.callFuncInst, if_neg (by rw [wasm]; exact Bool.false_ne_true), now.frame]
  dsimp only [bind, Except.bind]
  cases alloc : Interp.allocFrame idx f (fr.valueStackPtr - 4 * f.numParamCells) s₁ with
  | none => exact yields_error (trap _)
  | some s' =>
    rw [Interp.allocFrame] at alloc
    obtain ⟨-, alloc⟩ := Option.ite_none_left_eq_some.mp alloc
    cases alloc
    rw [← now.top, ← now.cache, ← now.memory, ← now.frames]
    -- there is room for the label of the function
    refine yields_check (fun full => ?_) fun _ => ⟨rfl, rfl, rfl, rfl⟩
    dsimp only [List.length_nil] at full
    omega

theorem returnFrame (f : FunctionInstance) : Yields (s₁.returnFrame f) (fun s' => s'.frames = returnTo f outer ∧
      s'.top = fr.address - 4 * f.numLocalCells ∧ s'.cache = s.cache ∧
      s'.inst.memory.isSome = s.inst.memory.isSome) F := by
  rw [Interp.returnFrame, now.frame]
  have tail : s₁.frames.tail = outer := by rw [now.frames]; rfl
  rw [tail]
  cases outer with
  | nil | cons caller outer => exact ⟨rfl, rfl, now.cache, now.memory⟩

end Now

theorem Interp.enter_frames {f : FunctionInstance} {funcIdx : Nat} {args : List UInt32} {inst : Instance} {s : Interp}
    (h : Interp.enter f funcIdx args inst = some s) : s.frames = [.called (4 * f.numParamCells) funcIdx 0 f] ∧
      s.top = (InterpFrame.called (4 * f.numParamCells) funcIdx 0 f).valueBoundary ∧ s.cache = fun _ => none := by
  obtain ⟨s₀, alloc, label⟩ := Option.bind_eq_some_iff.mp h
  rw [Interp.allocFrame] at alloc
  obtain ⟨-, alloc⟩ := Option.ite_none_left_eq_some.mp alloc
  cases alloc
  obtain ⟨-, pushed⟩ := ite_error_eq_ok.mp (toOption_eq_some.mp label)
  cases pushed
  exact ⟨rfl, rfl, rfl⟩

end Dtvm.Wasm
