import Dtvm.Wasm.MemoryPages

/-!
# The bound of loads and stores

The interpreter checks loads and stores against `LinearMemSize`, a variable of `interpret` that it sets at its
start and again at `memory.grow`. What can become of it and of the size of the memory in one step is said
once (`exec_resized`). A host function that grows the memory leaves the variable behind; nothing else does.
-/

namespace Dtvm.Wasm

open Effect

/-! ## Growing -/

theorem MemoryInstance.le_growLinearMemory (delta : Nat) (allocated : Bool) (m : MemoryInstance) :
    m.memSize ≤ (m.growLinearMemory delta allocated).2.memSize := by
  rcases m.growLinearMemory_cases delta allocated rfl with ⟨same, -⟩ | ⟨pages, -, le, -, -, -, cur, -⟩
  · exact Nat.le_of_eq (congrArg _ same.symm)
  · rw [m.sized, MemoryInstance.sized, cur]
    exact Nat.mul_le_mul_right _ le

def MemoryInstance.grown (grows : List (Nat × Bool)) (m : MemoryInstance) : MemoryInstance :=
  grows.foldl (fun m g => (m.growLinearMemory g.1 g.2).2) m

theorem MemoryInstance.le_grown :
    ∀ (grows : List (Nat × Bool)) (m : MemoryInstance), m.memSize ≤ (m.grown grows).memSize
  | [], _ => Nat.le_refl _
  | g :: grows, m => Nat.le_trans (m.le_growLinearMemory g.1 g.2) (le_grown grows _)

namespace Interp

/-! ## What a step does to the sizes -/

/-- The size the interpreter checks against, and the size of the memory. -/
def sizes (s : Interp) : Nat × Option Nat := (s.linearMemSize, s.inst.memory.map (·.memSize))

/-- The size the interpreter checks against, and the memory. -/
def accessed (s : Interp) : Nat × Option MemoryInstance := (s.linearMemSize, s.inst.memory)

theorem linearMemSize_of_accessed {s s' : Interp} (h : s'.accessed = s.accessed) : s'.linearMemSize = s.linearMemSize :=
  congrArg Prod.fst h

theorem sizes_of_accessed {s s' : Interp} (h : s'.accessed = s.accessed) : s'.sizes = s.sizes :=
  congrArg (fun v : Nat × Option MemoryInstance => (v.1, v.2.map (·.memSize))) h

/-- Neither of them is changed. -/
abbrev Keeps (s : Interp) (x : Except Stop Interp) : Prop := Effect.Ends x fun s' => s'.accessed = s.accessed

@[inherit_doc Keeps]
abbrev KeepsWith {α : Type} (s : Interp) (x : Except Stop (α × Interp)) : Prop :=
  Effect.Ends x fun r => r.2.accessed = s.accessed

theorem Keeps.bind {s : Interp} {x : Except Stop Interp} {go : Interp → Except Stop Interp}
    (h : s.Keeps x) (rest : ∀ s' : Interp, s'.Keeps (go s')) : s.Keeps (x >>= go) :=
  ends_bind h fun s' h => ends_mono (rest s') fun _ h' => h'.trans h

theorem KeepsWith.bind {α : Type} {s : Interp} {x : Except Stop (α × Interp)}
    {go : α × Interp → Except Stop Interp} (h : s.KeepsWith x) (rest : ∀ r : α × Interp, r.2.Keeps (go r)) :
    s.Keeps (x >>= go) :=
  ends_bind h fun r h => ends_mono (rest r) fun _ h' => h'.trans h

variable (s : Interp)

theorem valuePush_keeps (values : List UInt32) : s.Keeps (s.valuePush values) :=
  ends_after fun _ => ends_ite (ends_error _) (ends_ok rfl)

theorem valuePop_keeps (n : Nat) : s.KeepsWith (s.valuePop n) :=
  ends_after fun _ => ends_ite (ends_error _) (ends_ok rfl)

theorem valuePop32_keeps : s.KeepsWith s.valuePop32 :=
  ends_bind (s.valuePop_keeps 1) fun _ h => ends_ok h

theorem valuePops_keeps : ∀ (ns : List Nat) (s : Interp), s.KeepsWith (valuePops ns s)
  | [], _ => ends_ok rfl
  | n :: ns, s =>
    ends_bind (valuePops_keeps ns s) fun r h =>
      ends_bind (r.2.valuePop_keeps n) fun _ h' => ends_ok (h'.trans h)

theorem setIp_keeps (ip : Nat) : s.Keeps (s.setIp ip) := ends_after fun _ => ends_ok rfl

theorem blockPush_keeps (target cellNum : Nat) (label : LabelType) : s.Keeps (s.blockPush target cellNum label) :=
  ends_after fun _ => ends_ite (ends_error _) (ends_ok rfl)

theorem branch_keeps (depth : Nat) : s.Keeps (s.branch depth) := by
  refine ends_after fun f => ?_
  cases f.ctrl.drop depth with
  | nil => exact ends_error _
  | cons block outer => exact ends_ite (ends_ok rfl) (ends_ok rfl)

theorem returnFrame_keeps (f : FunctionInstance) : s.Keeps (s.returnFrame f) := by
  refine ends_after fun frame => ?_
  cases s.frames.tail with
  | nil | cons caller outer => exact ends_ok rfl

theorem findBlock_keeps (code : List UInt8) (ip : Nat) :
    Effect.Ends (s.findBlock code ip) fun r => r.2.2.accessed = s.accessed := by
  refine ends_after fun frame => ?_
  split
  · exact ends_ok rfl
  · exact ends_error _

theorem memory_ends : Effect.Ends s.memory fun m => s.inst.memory = some m := by
  rw [memory]
  cases s.inst.memory with
  | none => exact ends_error _
  | some m => exact ends_ok rfl

theorem loadOp_keeps (op : LoadOp) (offset : Nat) : s.Keeps (s.loadOp op offset) :=
  ends_after fun _ => s.valuePop32_keeps.bind fun r => ends_ite (ends_error _) (r.2.valuePush_keeps _)

theorem selectOp_keeps (n : Nat) : s.Keeps (s.selectOp n) :=
  s.valuePop32_keeps.bind fun r => (r.2.valuePop_keeps n).bind fun r₁ =>
    (r₁.2.valuePop_keeps n).bind fun r₂ => r₂.2.valuePush_keeps _

theorem numericOp_keeps (num : Numerics) (op : NumericOp) : s.Keeps (s.numericOp num op) := by
  rw [numericOp]
  cases op.effect with
  | none => exact ends_ok rfl
  | some effect =>
    refine (valuePops_keeps effect.1 s).bind fun r => ?_
    dsimp only
    cases num op r.1 with
    | error e => exact ends_error _
    | ok cells => exact r.2.valuePush_keeps _

theorem valueSet_keeps (addr : Nat) (values : List UInt32) : s.Keeps (s.valueSet addr values) :=
  ends_after fun _ => ends_ite (ends_error _) (ends_ok rfl)

/-! ## Calls -/

inductive Resized (ans : Answer) (s s' : Interp) : Prop
  | kept (same : s'.sizes = s.sizes)
  | synced (same : s'.inst.memory.map (·.memSize) = some s'.linearMemSize)
  | hosted (copy : s'.linearMemSize = s.linearMemSize)
      (memory : s'.inst.memory.map (·.memSize) = s.inst.memory.map fun m => (m.grown ans.grows).memSize)

theorem Resized.of_keeps {ans : Answer} {s s₁ s' : Interp} (keeps : s₁.accessed = s.accessed) (h : Resized ans s₁ s') :
    Resized ans s s' := by
  cases h with
  | kept same => exact .kept (same.trans (sizes_of_accessed keeps))
  | synced same => exact .synced same
  | hosted copy memory =>
    have untouched : s₁.inst.memory = s.inst.memory := congrArg Prod.snd keeps
    exact .hosted (copy.trans (linearMemSize_of_accessed keeps)) (untouched ▸ memory)

section Step

variable {s} (m : Module) (num : Numerics) (ans : Answer) (f : FunctionInstance)

theorem callNative_resized : Effect.Ends (s.callNative f ans) (Resized ans s) := by
  refine ends_bind (valuePops_keeps _ s) fun r keeps => ?_
  have resized (s' : Interp) (copy : s'.linearMemSize = r.2.linearMemSize)
      (memory : s'.inst.memory = r.2.inst.memory.map fun m =>
        { m.grown ans.grows with bytes := ans.bytes }) : Resized ans s s' := by
    refine .of_keeps keeps (.hosted copy ?_)
    rw [memory, Option.map_map]
    rfl
  cases ans.outcome with
  | error e => exact ends_error _
  | ok values =>
    cases f.type.result with
    | none => exact ends_ok (resized _ rfl rfl)
    | some t =>
      -- the push of the result does not touch the instance
      exact ends_after fun _ => ends_ite (ends_error _) (ends_ok (resized _ rfl rfl))

theorem callFuncInst_resized (funcIdx : Nat) : Effect.Ends (s.callFuncInst funcIdx f ans) (Resized ans s) := by
  refine ends_ite (callNative_resized ans f) (ends_after fun caller => ?_)
  dsimp only
  cases alloc : allocFrame funcIdx f (caller.valueStackPtr - 4 * f.numParamCells) s with
  | none => exact ends_error _
  | some s' =>
    rw [allocFrame] at alloc
    obtain ⟨-, alloc⟩ := Option.ite_none_left_eq_some.mp alloc
    have same : s'.accessed = s.accessed := Option.some.inj alloc ▸ rfl
    exact ends_mono (blockPush_keeps _ _ _ _) fun _ h => .of_keeps (h.trans same) (.kept rfl)

theorem storeOp_resized (op : StoreOp) (offset : Nat) : Effect.Ends (s.storeOp op offset) (Resized ans s) := by
  refine ends_bind s.memory_ends fun m hm => ?_
  refine ends_bind (s.valuePop_keeps _) fun r h => ends_bind r.2.valuePop32_keeps fun r' h' => ?_
  have copy : r'.2.linearMemSize = s.linearMemSize := linearMemSize_of_accessed (h'.trans h)
  refine ends_ite (ends_error _) (ends_ok (.kept (Prod.ext copy ?_)))
  exact (congrArg (Option.map (·.memSize)) hm).symm

/-- **What an instruction does to the sizes.** -/
theorem exec_resized (op : Opcode) (ip : Nat) : Effect.Ends (s.exec m num ans f op ip) (Resized ans s) := by
  have kept {x : Except Stop Interp} (h : s.Keeps x) : Effect.Ends x (Resized ans s) :=
    ends_mono h fun _ keeps => .of_keeps keeps (.kept rfl)
  cases op with
  | unreachable => exact ends_error _
  | nop => exact kept (s.setIp_keeps ip)
  | select | select64 => exact kept ((s.setIp_keeps ip).bind fun s => s.selectOp_keeps _)
  | block =>
    refine kept (ends_after fun cellNum => ends_bind (s.findBlock_keeps _ _) fun r h => ?_)
    exact ends_mono ((r.2.2.setIp_keeps (ip + 1)).bind fun s => s.blockPush_keeps _ _ _) fun _ h' => h'.trans h
  | loop => exact kept (ends_after fun _ => (s.setIp_keeps _).bind fun s => s.blockPush_keeps _ _ _)
  | «if» =>
    refine kept (ends_after fun cellNum => s.valuePop32_keeps.bind fun r => ?_)
    refine ends_bind (r.2.findBlock_keeps _ _) fun r' h => ?_
    refine ends_mono (?_ : r'.2.2.Keeps _) fun _ h' => h'.trans h
    refine ends_ite ((r'.2.2.setIp_keeps _).bind fun s => s.blockPush_keeps _ _ _) ?_
    cases r'.1 with
    | none => exact r'.2.2.setIp_keeps _
    | some elsePtr => exact (r'.2.2.setIp_keeps _).bind fun s => s.blockPush_keeps _ _ _
  | «else» =>
    refine kept (ends_after fun frame => ?_)
    cases frame.ctrl with
    | nil => exact ends_error _
    | cons block outer => exact s.setIp_keeps _
  | br => exact kept (ends_after fun _ => s.branch_keeps _)
  | brIf =>
    exact kept (ends_after fun _ => s.valuePop32_keeps.bind fun r =>
      ends_ite (r.2.branch_keeps _) (r.2.setIp_keeps _))
  | brTable =>
    exact kept (ends_after fun _ => s.valuePop32_keeps.bind fun r =>
      ends_after fun _ => ends_after fun _ => r.2.branch_keeps _)
  | drop | drop64 => exact kept ((s.valuePop_keeps _).bind fun r => r.2.setIp_keeps _)
  | getGlobal64 => exact kept (ends_after fun _ => (s.setIp_keeps _).bind fun s => s.valuePush_keeps _)
  | setGlobal64 =>
    exact kept (ends_after fun _ => (s.valuePop_keeps 2).bind fun r => (setGlobalCells _ _ r.2).setIp_keeps _)
  | getLocal =>
    exact kept (ends_after fun _ => ends_after fun _ => (s.setIp_keeps _).bind fun s =>
      ends_after fun _ => s.valuePush_keeps _)
  | setLocal =>
    exact kept (ends_after fun _ => ends_after fun _ => (s.valuePop_keeps _).bind fun r =>
      (r.2.valueSet_keeps _ _).bind fun s => s.setIp_keeps _)
  | teeLocal =>
    exact kept (ends_after fun _ => ends_after fun _ => ends_after fun _ =>
      (s.valueSet_keeps _ _).bind fun s => s.setIp_keeps _)
  | getGlobal =>
    refine kept (ends_after fun r => ?_)
    dsimp only
    cases m.globalTypes[r.1]? with
    | none => exact ends_error _
    | some t => exact (s.setIp_keeps _).bind fun s => s.valuePush_keeps _
  | setGlobal =>
    refine kept (ends_after fun r => ?_)
    dsimp only
    cases m.globalTypes[r.1]? with
    | none => exact ends_error _
    | some t => exact (s.valuePop_keeps _).bind fun r => (setGlobalCells _ _ r.2).setIp_keeps _
  | f32Const | f64Const => exact kept ((s.setIp_keeps _).bind fun s => s.valuePush_keeps _)
  | i32Const | i64Const =>
    refine kept ?_
    rw [exec]
    split
    · exact ends_error _
    · exact (s.setIp_keeps _).bind fun s => s.valuePush_keeps _
  | memoryGrow =>
    exact ends_after fun _ => ends_bind (s.setIp_keeps _) fun s' keeps =>
      ends_after fun _ => ends_after fun _ => ends_after fun _ => ends_ok (.of_keeps keeps (.synced rfl))
  | memorySize =>
    exact kept (ends_after fun _ => ends_after fun _ => (s.setIp_keeps _).bind fun s => s.valuePush_keeps _)
  | store op =>
    exact ends_after fun _ => ends_after fun _ => ends_bind (s.setIp_keeps _) fun s' keeps =>
      ends_mono (storeOp_resized ans op _) fun _ => .of_keeps keeps
  | load op =>
    exact kept (ends_after fun _ => ends_after fun _ => (s.setIp_keeps _).bind fun s => s.loadOp_keeps _ _)
  | numeric op => exact kept ((s.setIp_keeps _).bind fun s => s.numericOp_keeps _ _)
  | «return» => exact kept (s.returnFrame_keeps f)
  | call =>
    refine ends_after fun r => ends_bind (s.setIp_keeps r.2) fun s' keeps => ?_
    refine ends_mono ?_ fun _ => Resized.of_keeps keeps
    refine ends_ite (ends_bind (s'.valuePop_keeps 2) fun _ h =>
      ends_ite (ends_error _) (ends_ok (.of_keeps h (.kept rfl)))) ?_
    cases m.functions[r.1]? with
    | none => exact ends_error _
    | some callee => exact callFuncInst_resized ans callee _
  | callIndirect =>
    refine ends_after fun r => ends_bind (s.setIp_keeps (r.2 + 1)) fun s₁ keeps => ?_
    refine ends_bind s₁.valuePop32_keeps fun r₁ keeps₁ => ends_mono ?_ fun _ => .of_keeps (keeps₁.trans keeps)
    cases m.types[r.1]? with
    | none => exact ends_error _
    | some expected =>
      refine ends_ite (ends_error _) ?_
      cases m.elements[r₁.1.toNat]? with
      | none => exact ends_error _
      | some funcIdx =>
        refine ends_ite (ends_error _) ?_
        cases m.functions[funcIdx.toNat]? with
        | none => exact ends_error _
        | some callee => exact ends_ite (ends_error _) (callFuncInst_resized ans callee _)
  | «end» =>
    exact kept (ends_after fun _ => (s.setIp_keeps _).bind fun s =>
      ends_ite (ends_after fun _ => ends_ok rfl) (s.returnFrame_keeps f))

theorem step_resized : Effect.Ends (s.step m num ans) (Resized ans s) := by
  refine ends_after fun frame => ?_
  cases m.functions[frame.funcIdx]? with
  | none => exact ends_error _
  | some f =>
    dsimp only
    cases f.code[frame.ip]? with
    | none => exact ends_error _
    | some b =>
      dsimp only
      cases Opcode.ofByte b with
      | none => exact ends_error _
      | some op => exact exec_resized m num ans f op _

end Step

/-! ## Runs -/

/-- The bytes of the memory of the instance; an instance without a memory has none. -/
def memSize (s : Interp) : Nat := (s.inst.memory.map (·.memSize)).getD 0

theorem memSize_eq_of_sizes {s s' : Interp} (h : s'.sizes = s.sizes) : s'.memSize = s.memSize :=
  congrArg (fun p : Nat × Option Nat => p.2.getD 0) h

section Runs

variable {s s' : Interp} {ans : Answer}

theorem Resized.le (h : Resized ans s s') (before : s.linearMemSize ≤ s.memSize) : s'.linearMemSize ≤ s'.memSize := by
  cases h with
  | kept same =>
    have copy : s'.linearMemSize = s.linearMemSize := congrArg Prod.fst same
    rw [copy, memSize_eq_of_sizes same]
    exact before
  | synced same =>
    rw [memSize, same]
    exact Nat.le_refl _
  | hosted copy memory =>
    rw [copy, memSize, memory]
    refine Nat.le_trans before ?_
    rw [memSize]
    cases s.inst.memory with
    | none => exact Nat.le_refl _
    | some m => exact m.le_grown ans.grows

theorem Resized.eq (h : Resized ans s s') (still : ans.grows = []) (before : s.linearMemSize = s.memSize) :
    s'.linearMemSize = s'.memSize := by
  cases h with
  | kept same =>
    have copy : s'.linearMemSize = s.linearMemSize := congrArg Prod.fst same
    rw [copy, memSize_eq_of_sizes same]
    exact before
  | synced same =>
    rw [memSize, same]
    rfl
  | hosted copy memory =>
    rw [copy, before, memSize, memSize, memory, still]
    rfl

end Runs

/-! ## Accesses -/

/-- A load or store: how many bytes it reads or writes, at which base and static offset. -/
structure Access where
  width : Nat
  base : Nat
  offset : Nat
deriving DecidableEq, Repr

def Access.stop (a : Access) : Nat := a.base + a.offset + a.width

def readOffset (code : List UInt8) (ip : Nat) : Except Stop Nat := do
  let (_, ip) ← readU32 code ip
  let (offset, _) ← readU32 code ip
  .ok offset

def access (m : Module) (s : Interp) : Option Access := do
  let frame ← s.frames.head?
  let f ← m.functions[frame.funcIdx]?
  let op ← Opcode.ofByte (← f.code[frame.ip]?)
  let _ ← s.inst.memory
  let offset ← (readOffset f.code (frame.ip + 1)).toOption
  match op with
  | .load op => do
    let (base, _) ← s.valuePop32.toOption
    some ⟨op.width, base.toNat, offset⟩
  | .store op => do
    let (_, s) ← (s.valuePop op.operand.cellNum).toOption
    let (base, _) ← s.valuePop32.toOption
    some ⟨op.width, base.toNat, offset⟩
  | _ => none

theorem valuePop_setIp {s s₁ s' : Interp} {ip n : Nat} {values : List UInt32} (moved : s.setIp ip = .ok s₁)
    (popped : s.valuePop n = .ok (values, s')) : ∃ s₁', s₁.valuePop n = .ok (values, s₁') ∧ s'.setIp ip = .ok s₁' := by
  obtain ⟨frame, hframe, h⟩ := bind_eq_ok.mp moved
  cases h
  rw [valuePop, hframe] at popped
  obtain ⟨room, popped⟩ := ite_error_eq_ok.mp popped
  cases popped
  exact ⟨_, if_neg room, rfl⟩

theorem valuePop32_setIp {s s₁ s' : Interp} {ip : Nat} {value : UInt32} (moved : s.setIp ip = .ok s₁)
    (popped : s.valuePop32 = .ok (value, s')) : ∃ s₁', s₁.valuePop32 = .ok (value, s₁') := by
  obtain ⟨⟨values, s''⟩, pop, h⟩ := bind_eq_ok.mp popped
  obtain ⟨s₁', pop', -⟩ := valuePop_setIp moved pop
  refine ⟨s₁', ?_⟩
  rw [valuePop32, pop']
  exact congrArg (fun v : UInt32 × Interp => Except.ok (v.1, s₁')) (Except.ok.inj h)

theorem valuePush_ne_trap (s : Interp) (values : List UInt32) (e : ErrorCode) :
    s.valuePush values ≠ .error (.trap e) := by
  rw [valuePush, frame]
  cases s.frames with
  | nil => rintro ⟨⟩
  | cons f outer =>
    intro h
    replace h : (if f.valueStackPtr + 4 * values.length > f.valueBoundary then .error (.abort .valueStack)
      else _ : Except Stop Interp) = _ := h
    split_ifs at h
    cases h

theorem checked_traps_iff {c : Prop} [Decidable c] {x : Except Stop Interp}
    (go : x ≠ .error (.trap .outOfBoundsMemory)) :
    (if c then .error (.trap .outOfBoundsMemory) else x) = .error (.trap .outOfBoundsMemory) ↔ c := by
  by_cases h : c
  · rw [if_pos h]
    exact ⟨fun _ => h, fun _ => rfl⟩
  · rw [if_neg h]
    exact ⟨fun same => absurd same go, fun yes => absurd yes h⟩

theorem loadOp_traps_iff {s s' : Interp} {mem : MemoryInstance} {base : UInt32} (op : LoadOp) (offset : Nat)
    (memory : s.inst.memory = some mem) (popped : s.valuePop32 = .ok (base, s')) :
    s.loadOp op offset = .error (.trap .outOfBoundsMemory) ↔ s.linearMemSize < offset + op.width + base.toNat := by
  rw [loadOp, Interp.memory, memory]
  rw [popped, ← linearMemSize_of_accessed (s.valuePop32_keeps _ popped)]
  exact checked_traps_iff (s'.valuePush_ne_trap _ _)

theorem storeOp_traps_iff {s s₁ s' : Interp} {mem : MemoryInstance} {values : List UInt32} {base : UInt32}
    (op : StoreOp) (offset : Nat) (memory : s.inst.memory = some mem)
    (operand : s.valuePop op.operand.cellNum = .ok (values, s₁)) (popped : s₁.valuePop32 = .ok (base, s')) :
    s.storeOp op offset = .error (.trap .outOfBoundsMemory) ↔ s.linearMemSize < offset + op.width + base.toNat := by
  rw [storeOp, Interp.memory, memory]
  rw [operand]
  show (s₁.valuePop32 >>= _) = _ ↔ _
  rw [popped, ← linearMemSize_of_accessed (s.valuePop_keeps _ _ operand),
    ← linearMemSize_of_accessed (s₁.valuePop32_keeps _ popped)]
  exact checked_traps_iff (by rintro ⟨⟩)

/-- **The bound that is checked** is the variable of the interpreter. -/
theorem step_traps_iff {m : Module} {s : Interp} {a : Access} (next : s.access m = some a) (num : Numerics)
    (ans : Answer) : s.step m num ans = .error (.trap .outOfBoundsMemory) ↔ s.linearMemSize < a.stop := by
  rw [access] at next
  obtain ⟨frame, hframe, next⟩ := Option.bind_eq_some_iff.mp next
  obtain ⟨f, hf, next⟩ := Option.bind_eq_some_iff.mp next
  obtain ⟨b, hb, next⟩ := Option.bind_eq_some_iff.mp next
  obtain ⟨op, hop, next⟩ := Option.bind_eq_some_iff.mp next
  obtain ⟨mem, hmem, next⟩ := Option.bind_eq_some_iff.mp next
  obtain ⟨offset, hoffset, next⟩ := Option.bind_eq_some_iff.mp next
  obtain ⟨⟨align, ip₁⟩, read₁, hoffset⟩ := bind_eq_ok.mp (toOption_eq_some.mp hoffset)
  obtain ⟨⟨offset', ip₂⟩, read₂, hoffset⟩ := bind_eq_ok.mp hoffset
  obtain rfl := Except.ok.inj hoffset
  have now : s.frame = .ok frame := frame_eq_ok.mpr hframe
  obtain ⟨s₁, moved⟩ : ∃ s₁, s.setIp ip₂ = .ok s₁ := by
    rw [setIp, now]
    exact ⟨_, rfl⟩
  have keeps : s₁.accessed = s.accessed := s.setIp_keeps ip₂ _ moved
  have memory : s₁.inst.memory = some mem := (congrArg Prod.snd keeps).trans hmem
  rw [step_eq_exec now hf hb hop, Access.stop, ← linearMemSize_of_accessed keeps]
  cases op with
  | load op =>
    obtain ⟨⟨base, s'⟩, popped, next⟩ := Option.bind_eq_some_iff.mp next
    obtain ⟨s₁', popped'⟩ := valuePop32_setIp moved (toOption_eq_some.mp popped)
    cases next
    have loads : s.exec m num ans f (.load op) (frame.ip + 1) = s₁.loadOp op offset' := by
      rw [exec, read₁]
      show (readU32 f.code ip₁ >>= _) = _
      rw [read₂]
      show (s.setIp ip₂ >>= _) = _
      rw [moved]
      rfl
    rw [loads, loadOp_traps_iff op offset' memory popped']
    dsimp only
    omega
  | store op =>
    obtain ⟨⟨values, s'⟩, operand, next⟩ := Option.bind_eq_some_iff.mp next
    obtain ⟨⟨base, s''⟩, popped, next⟩ := Option.bind_eq_some_iff.mp next
    obtain ⟨s₂, operand', moved'⟩ := valuePop_setIp moved (toOption_eq_some.mp operand)
    obtain ⟨s₂', popped'⟩ := valuePop32_setIp moved' (toOption_eq_some.mp popped)
    cases next
    have stores : s.exec m num ans f (.store op) (frame.ip + 1) = s₁.storeOp op offset' := by
      rw [exec, read₁]
      show (readU32 f.code ip₁ >>= _) = _
      rw [read₂]
      show (s.setIp ip₂ >>= _) = _
      rw [moved]
      rfl
    rw [stores, storeOp_traps_iff op offset' memory operand' popped']
    dsimp only
    omega
  | _ => cases next

/-! ## Executions -/

theorem enter_sized {f : FunctionInstance} {funcIdx : Nat} {args : List UInt32} {inst : Instance} {s : Interp}
    (h : Interp.enter f funcIdx args inst = some s) : s.linearMemSize = s.memSize := by
  obtain ⟨s₀, alloc, label⟩ := Option.bind_eq_some_iff.mp h
  rw [allocFrame] at alloc
  obtain ⟨-, alloc⟩ := Option.ite_none_left_eq_some.mp alloc
  have same : s.accessed = s₀.accessed := s₀.blockPush_keeps _ _ _ _ (toOption_eq_some.mp label)
  rw [linearMemSize_of_accessed same, memSize_eq_of_sizes (sizes_of_accessed same), ← Option.some.inj alloc]
  rfl

end Interp

section Runs

variable {m : Module} {num : Numerics} {f : FunctionInstance} {funcIdx : Nat} {args : List UInt32}
  {inst : Instance} {init s : Interp} {answers : List Answer}

theorem interpreter_le (entered : Interp.enter f funcIdx args inst = some init)
    (run : (interpreter m num init).run init answers = some s) : s.linearMemSize ≤ s.memSize := by
  have keeps (s : Interp) (ans : Answer) (s' : Interp) (before : s.linearMemSize ≤ s.memSize) (_ : True)
      (step : (interpreter m num init).step s ans = some s') : s'.linearMemSize ≤ s'.memSize :=
    (Interp.step_resized m num ans _ (toOption_eq_some.mp step)).le before
  exact System.run_invariant keeps (Nat.le_of_eq (Interp.enter_sized entered)) (System.along_true _ _) run

theorem interpreter_eq (entered : Interp.enter f funcIdx args inst = some init)
    (still : ∀ ans ∈ answers, ans.grows = [])
    (run : (interpreter m num init).run init answers = some s) : s.linearMemSize = s.memSize := by
  have keeps (s : Interp) (ans : Answer) (s' : Interp) (before : s.linearMemSize = s.memSize)
      (still : ans.grows = []) (step : (interpreter m num init).step s ans = some s') :
      s'.linearMemSize = s'.memSize :=
    (Interp.step_resized m num ans _ (toOption_eq_some.mp step)).eq still before
  exact System.run_invariant keeps (Interp.enter_sized entered) (System.along_of_forall still) run

/-- **The trap of a load or store is exact** unless its end lies between the bytes that the interpreter knows
of and the bytes that there are. While no host function grows the memory there are no such bytes. -/
theorem trap_exact_iff (entered : Interp.enter f funcIdx args inst = some init)
    (run : (interpreter m num init).run init answers = some s) {a : Interp.Access}
    (next : s.access m = some a) (ans : Answer) :
    ((s.step m num ans = .error (.trap .outOfBoundsMemory) ↔ s.memSize < a.stop) ↔
      ¬ (s.linearMemSize < a.stop ∧ a.stop ≤ s.memSize)) ∧
    ((∀ ans ∈ answers, ans.grows = []) → s.linearMemSize = s.memSize) := by
  refine ⟨?_, fun still => interpreter_eq entered still run⟩
  have behind : s.linearMemSize ≤ s.memSize := interpreter_le entered run
  rw [Interp.step_traps_iff next]
  omega

end Runs

/-! ## A host function that grows the memory -/

namespace Growing

/-- A function that calls a host function and loads from the second page. -/
def module : Module where
  functions :=
    [⟨true, ⟨[], none⟩, [], [], 0, 0⟩,
      ⟨false, ⟨[], none⟩, [], [0x10, 0x00, 0x41, 0x80, 0x80, 0x04, 0x28, 0x02, 0x00, 0x1a, 0x0b], 4, 1⟩]
  types := [⟨[], none⟩]
  globalTypes := []
  gasFuncIdx := none
  elements := []

def numerics : Numerics := fun _ _ => .ok fun _ => 0

def inst : Instance := ⟨some ⟨1, 2, 65536, fun _ => 0, rfl⟩, fun _ => (0, 0), 0⟩

def host : Answer := ⟨true, [(1, true)], fun _ => 0, fun _ => (0, 0), 0, .ok fun _ => 0⟩

def entered : Option Interp := Interp.enter (module.functions.getD 1 ⟨true, ⟨[], none⟩, [], [], 0, 0⟩) 1 [] inst

def init : Interp := entered.get (by decide +kernel)

def atLoad (answers : List Answer) : Option Interp := (interpreter module numerics init).run init answers

/-- The load is in the memory and traps. -/
theorem load_in_new_page_traps : ∃ s, atLoad [host, host] = some s ∧
    s.access module = some ⟨4, 65536, 0⟩ ∧ s.memSize = 131072 ∧
    s.step module numerics host = .error (.trap .outOfBoundsMemory) := by
  refine ⟨(atLoad [host, host]).get (by decide +kernel), (Option.some_get _).symm, ?_, ?_, ?_⟩
  · decide +kernel
  · decide +kernel
  · have next : ((atLoad [host, host]).get (by decide +kernel)).access module = some ⟨4, 65536, 0⟩ := by
      decide +kernel
    rw [Interp.step_traps_iff next]
    decide +kernel

def quiet : Answer := { host with grows := [] }

theorem trap_exact_quiet : ∃ s, atLoad [quiet, quiet] = some s ∧ s.access module = some ⟨4, 65536, 0⟩ ∧
    ((s.step module numerics quiet = .error (.trap .outOfBoundsMemory) ↔ s.memSize < 65540) ↔
      ¬ (s.linearMemSize < 65540 ∧ 65540 ≤ s.memSize)) ∧ s.linearMemSize = s.memSize := by
  have reached : atLoad [quiet, quiet] = some ((atLoad [quiet, quiet]).get (by decide +kernel)) :=
    (Option.some_get _).symm
  have next : ((atLoad [quiet, quiet]).get (by decide +kernel)).access module = some ⟨4, 65536, 0⟩ := by
    decide +kernel
  have here : entered = some init := (Option.some_get _).symm
  obtain ⟨exact, still⟩ := trap_exact_iff here reached next quiet
  exact ⟨_, reached, next, exact, still (by decide)⟩

end Growing

end Dtvm.Wasm
