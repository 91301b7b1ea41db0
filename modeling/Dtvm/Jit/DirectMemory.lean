import Dtvm.Evm.BigEndian
import Dtvm.Jit.Memory
import Dtvm.Stack.Ops

/-!
# Loads and stores of compiled code

Compiled code loads and stores words of the memory itself. Each access first checks that the memory is large
enough, and pays for it if it has to grow (`expandMemoryIR`). In blocks of certain shapes one check, at the first
access, stands for all; they then go through a copy of the memory's base address.

A block is run with the plans that the visitor made for it (`Plans`). What an access costs is paid from the gas
and from what the memory has cost so far, and their sum does not change (`DirectState.budget`). So whether an
access can be paid depends on the size that it needs and on that sum only (`Affordable`).
-/

namespace Dtvm.Jit

open OperandStack

inductive Base where
  | null | buffer
deriving DecidableEq, Repr

inductive MemoryOp where
  | mload | mstore | mstore8
deriving DecidableEq, Repr

def MemoryOp.width : MemoryOp → Nat
  | .mload | .mstore => 32
  | .mstore8 => 1

/-- The opcodes of the blocks that the visitor makes plans for. -/
inductive DirectOp where
  | jumpdest | push0
  /-- The bytes of the immediate and its value. -/
  | push (n : Nat) (v : Word)
  | dup (n : Nat) | swap (n : Nat) | pop | add | sub | calldataload | msize
  | memory (k : MemoryOp)
deriving DecidableEq, Repr

def DirectOp.stackOp : DirectOp → Op
  | .jumpdest => .plain 0 0
  | .push0 | .push _ _ | .msize => .plain 0 1
  | .dup n => .dup (n - 1)
  | .swap n => .swap n
  | .pop => .plain 1 0
  | .add | .sub => .plain 2 1
  | .calldataload | .memory .mload => .plain 1 1
  | .memory .mstore | .memory .mstore8 => .plain 2 0

/-- What a compiled block works on. `memoryBase` is a field of the instance, which is null until the memory
has grown, and `memoryBaseVar` the variable with its copy. `msizes` are the sizes that `MSIZE` has
pushed. -/
structure DirectState where
  stack : List Word
  memory : Bytes
  gas : Nat
  memoryBase : Base
  memoryBaseVar : Base
  msizes : List Nat
  allocated : memory.length ≠ 0 → memoryBase = .buffer

inductive Failure where
  | gasLimitExceeded
  | undefinedOpcode
  | stackUnderflow
  /-- An access through the null address, or outside the memory. -/
  | badAccess
deriving DecidableEq, Repr

/-! ## Growing -/

def calculateMemoryGasCostIR (sizeInBytes : Nat) : Nat := memoryCost ((sizeInBytes + 31) / 32)

/-- `expandMemoryNoGas` and the variable assigned after it. -/
def DirectState.extendTo (alignedSize gas : Nat) (s : DirectState) : DirectState :=
  { s with
    memory := s.memory ++ List.replicate (alignedSize - s.memory.length) 0
    gas := gas
    memoryBase := .buffer
    memoryBaseVar := .buffer
    allocated := fun _ => rfl }

def expandMemoryIR (requiredSize : Nat) (overflow : Bool) (s : DirectState) : Except Failure DirectState :=
  if overflow = true ∨ requiredSize > maxRequiredMemorySize then .error .gasLimitExceeded
  else if requiredSize > s.memory.length then
    let alignedSize := roundUp requiredSize
    let cost := calculateMemoryGasCostIR alignedSize - calculateMemoryGasCostIR s.memory.length
    if s.gas < cost then .error .gasLimitExceeded
    else .ok (s.extendTo alignedSize (s.gas - cost))
  else .ok s

/-! ## Plans -/

/-- `MemoryBlockConstPrecheckPlan`. -/
structure ConstPlan where
  active : Bool := false
  emitted : Bool := false
  maxRequiredSize : Nat := 0
  coveredDirectOpsRemaining : Nat := 0
deriving DecidableEq, Repr

/-- `MemoryBlockLinearPrecheckPlan`, with the opcode and the place of the stride that the visitor's plan
has. -/
structure LinearPlan where
  active : Bool := false
  emitted : Bool := false
  pendingStride : Option Word := none
  valueEqualsFirstAddr : Bool := false
  accessWidth : Nat := 0
  coveredDirectOpsTotal : Nat := 0
  coveredDirectOpsRemaining : Nat := 0
  coveredOpcode : MemoryOp := .mload
  strideStackIndex : Nat := 0
deriving DecidableEq, Repr

structure Plans where
  const : ConstPlan := {}
  linear : LinearPlan := {}
deriving DecidableEq, Repr

def Plans.none : Plans := {}

/-- `maybePrepareLinearBlockMemoryPrecheck` and `prepareLinearBlockMemoryPrecheck`. -/
def Plans.prepare (k : MemoryOp) (stack : List Word) (plans : Plans) : Plans :=
  if plans.linear.active = true ∧ plans.linear.emitted = false ∧ plans.linear.coveredOpcode = k then
    match stack[plans.linear.strideStackIndex]? with
    | some stride => { plans with linear := { plans.linear with pendingStride := some stride } }
    | .none => plans
  else plans

/-- `normalizeOperandU64` without a substitute, which stops at a word of more than 64 bits. -/
def directOffset (v : Word) : Except Failure Nat :=
  if v.toNat < 2 ^ 64 then .ok v.toNat else .error .gasLimitExceeded

/-- `tryConsumeConstBlockMemoryPrecheck`: whether the access is covered. -/
def tryConsumeConst (plans : Plans) (s : DirectState) : Except Failure (Bool × Plans × DirectState) :=
  let plan := plans.const
  if plan.active = false ∨ plan.coveredDirectOpsRemaining = 0 then .ok (false, plans, s)
  else do
    let s ← if plan.emitted then pure s else expandMemoryIR plan.maxRequiredSize false s
    pure (true, { plans with
      const := { plan with
        emitted := true
        coveredDirectOpsRemaining := plan.coveredDirectOpsRemaining - 1
        active := plan.coveredDirectOpsRemaining - 1 != 0 } }, s)

/-- The check that `tryConsumeLinearBlockMemoryPrecheck` emits, in 64-bit arithmetic. -/
def linearCheck (plan : LinearPlan) (firstAddr : Nat) (stride : Word) (s : DirectState) :
    Except Failure DirectState := do
  let stride ← directOffset stride
  let lastIndex := plan.coveredDirectOpsTotal - 1
  let lastAddr := if lastIndex ≠ 0 then (firstAddr + stride * lastIndex % 2 ^ 64) % 2 ^ 64 else firstAddr
  let overflow := decide (lastIndex ≠ 0) &&
    (decide (stride > (2 ^ 64 - 1) / lastIndex) || decide (lastAddr < firstAddr))
  let requiredSize := (lastAddr + plan.accessWidth) % 2 ^ 64
  expandMemoryIR requiredSize (overflow || decide (requiredSize < lastAddr)) s

/-- `tryConsumeLinearBlockMemoryPrecheck`. -/
def tryConsumeLinear (firstAddr : Nat) (plans : Plans) (s : DirectState) :
    Except Failure (Bool × Plans × DirectState) :=
  let plan := plans.linear
  if plan.active = false ∨ plan.coveredDirectOpsRemaining = 0 then .ok (false, plans, s)
  else
    let next : Plans := { plans with
      linear := { plan with
        emitted := true
        pendingStride := if plan.emitted then plan.pendingStride else none
        coveredDirectOpsRemaining := plan.coveredDirectOpsRemaining - 1
        active := plan.coveredDirectOpsRemaining - 1 != 0 } }
    if plan.emitted then .ok (true, next, s)
    else match plan.pendingStride with
      | none => .ok (false, plans, s)
      | some stride => do
        let s ← linearCheck plan firstAddr stride s
        pure (true, next, s)

/-! ## Accesses -/

def checkOwn (k : MemoryOp) (offset : Nat) (s : DirectState) : Except Failure DirectState :=
  let requiredSize := (offset + k.width) % 2 ^ 64
  expandMemoryIR requiredSize (decide (requiredSize < offset)) s

/-- The checks of `handleMLoad`, `handleMStore` and `handleMStore8`: the offset, and whether a shared check
covers the access. `MSTORE8` is no part of a linear plan. -/
def checkAccess (k : MemoryOp) (addr : Word) (plans : Plans) (s : DirectState) :
    Except Failure (Nat × Bool × Plans × DirectState) := do
  let (linear, plans, s) ←
    if k ≠ .mstore8 ∧ plans.linear.active = true ∧ plans.linear.coveredDirectOpsRemaining ≠ 0
      then tryConsumeLinear addr.low64 plans s
      else pure (false, plans, s)
  if linear then pure (addr.low64, true, plans, s)
  else do
    let offset ← directOffset addr
    let (shared, plans, s) ← tryConsumeConst plans s
    if shared then pure (offset, true, plans, s)
    else do
      let s ← checkOwn k offset s
      pure (offset, false, plans, s)

def getDirectMemoryDataPointer (preferCachedBase : Bool) (s : DirectState) : Base × DirectState :=
  if preferCachedBase then (s.memoryBaseVar, s)
  else (s.memoryBase, { s with memoryBaseVar := s.memoryBase })

def MemoryOp.stored (value : Word) : MemoryOp → Bytes
  | .mload => []
  | .mstore => value.store
  | .mstore8 => [UInt8.ofNat (value &&& 0xFF).toNat]

theorem MemoryOp.length_stored (value : Word) (k : MemoryOp) : (k.stored value).length ≤ k.width := by
  cases k with
  | mload => exact Nat.zero_le _
  | mstore => simp [stored, Word.store, width]
  | mstore8 => exact Nat.le_refl _

def MemoryOp.loaded (memory : Bytes) (offset : Nat) : MemoryOp → List Word
  | .mload => [Word.load ((memory.drop offset).take 32)]
  | .mstore | .mstore8 => []

def DirectState.put (k : MemoryOp) (offset : Nat) (value : Word) (s : DirectState)
    (inside : offset + k.width ≤ s.memory.length) : DirectState :=
  { s with
    memory := overwrite s.memory offset (k.stored value)
    allocated := by
      rw [length_overwrite (Nat.le_trans (Nat.add_le_add_left (k.length_stored value) _) inside)]
      exact s.allocated }

def access (k : MemoryOp) (base : Base) (offset : Nat) (value : Word) (s : DirectState) :
    Except Failure (List Word × DirectState) :=
  if inside : base = .buffer ∧ offset + k.width ≤ s.memory.length then
    .ok (k.loaded s.memory offset, s.put k offset value inside.2)
  else .error .badAccess

/-- `handleMLoad`, `handleMStore` and `handleMStore8`. In a linear plan for `MSTORE` the value is the
address, and the offset is stored in its place. -/
def handleAccess (k : MemoryOp) (plans : Plans) (s : DirectState) :
    Except Failure (Plans × List Word × DirectState) := do
  let canReuseAddrAsValue := plans.linear.active && plans.linear.coveredDirectOpsRemaining != 0 &&
    plans.linear.valueEqualsFirstAddr
  let (offset, shared, plans, s) ←
    checkAccess k (s.stack.headD 0) (plans.prepare k s.stack) s
  let value := if shared && canReuseAddrAsValue then BitVec.ofNat 256 offset else s.stack.getD 1 0
  let (base, s) := getDirectMemoryDataPointer shared s
  let (loaded, s) ← access k base offset value s
  pure (plans, loaded, s)

/-- What a block reads besides its state: the revision and the call data. -/
structure BlockEnv where
  rev : Revision
  callDataLoad : Word → Word

def DirectOp.given (env : BlockEnv) (stack : List Word) : DirectOp → List Word
  | .push0 => [0]
  | .push _ v => [v]
  | .add => [stack.headD 0 + stack.getD 1 0]
  | .sub => [stack.headD 0 - stack.getD 1 0]
  | .calldataload => [env.callDataLoad (stack.headD 0)]
  | _ => []

def directEffect (env : BlockEnv) (op : DirectOp) (plans : Plans) (s : DirectState) :
    Except Failure (Plans × DirectState) :=
  match op with
  | .memory k => do
    let (plans, loaded, s) ← handleAccess k plans s
    pure (plans, { s with stack := op.stackOp.run loaded s.stack })
  | .msize =>
    .ok (plans, { s with
      stack := BitVec.ofNat 256 s.memory.length :: s.stack
      msizes := s.msizes ++ [s.memory.length] })
  | op => .ok (plans, { s with stack := op.stackOp.run (op.given env s.stack) s.stack })

def directStep (env : BlockEnv) (op : DirectOp) (plans : Plans) (s : DirectState) :
    Except Failure (Plans × DirectState) :=
  if op = .push0 ∧ env.rev < .shanghai then .error .undefinedOpcode
  else if s.stack.length < op.stackOp.need then .error .stackUnderflow
  else directEffect env op plans s

def directRun (env : BlockEnv) : List DirectOp → Plans → DirectState → Except Failure (Plans × DirectState)
  | [], plans, s => .ok (plans, s)
  | op :: ops, plans, s => do
    let (plans, s) ← directStep env op plans s
    directRun env ops plans s

/-! ## What can be paid -/

theorem gasCost_roundUp (size : Nat) : calculateMemoryGasCostIR (roundUp size) = calculateMemoryGasCostIR size := by
  rw [calculateMemoryGasCostIR, roundUp_words, calculateMemoryGasCostIR]

theorem gasCost_mono {a b : Nat} (h : a ≤ b) : calculateMemoryGasCostIR a ≤ calculateMemoryGasCostIR b :=
  memoryCost_mono (Nat.div_le_div_right (Nat.add_le_add_right h 31))

/-- The size of the memory after an access that needs a size. -/
def grownSize (size required : Nat) : Nat := if required ≤ size then size else roundUp required

theorem le_grownSize (size required : Nat) : size ≤ grownSize size required := by
  rw [grownSize]
  split
  · exact Nat.le_refl _
  · next more => exact Nat.le_trans (Nat.le_of_not_le more) (le_roundUp _)

theorem required_le_grownSize (size required : Nat) : required ≤ grownSize size required := by
  rw [grownSize]
  split
  · assumption
  · exact le_roundUp _

theorem grownSize_grownSize (size a b : Nat) : grownSize (grownSize size a) b = grownSize size (max a b) := by
  simp only [grownSize, roundUp]
  split <;> split <;> split <;> omega

theorem grownSize_mono (size : Nat) {a b : Nat} (h : a ≤ b) : grownSize size a ≤ grownSize size b := by
  have both := grownSize_grownSize size a b
  rw [Nat.max_eq_right h] at both
  rw [← both]
  exact le_grownSize _ _

def Affordable (budget required : Nat) : Prop :=
  required ≤ maxRequiredMemorySize ∧ calculateMemoryGasCostIR required ≤ budget

instance (budget required : Nat) : Decidable (Affordable budget required) := by
  unfold Affordable; infer_instance

theorem Affordable.mono {budget a b : Nat} (h : Affordable budget b) (le : a ≤ b) : Affordable budget a :=
  ⟨Nat.le_trans le h.1, Nat.le_trans (gasCost_mono le) h.2⟩

theorem affordable_zero (budget : Nat) : Affordable budget 0 := ⟨Nat.zero_le _, Nat.zero_le _⟩

namespace DirectState

def budget (s : DirectState) : Nat := s.gas + calculateMemoryGasCostIR s.memory.length

def grow (required : Nat) (s : DirectState) : DirectState :=
  if required ≤ s.memory.length then s
  else s.extendTo (roundUp required) (s.budget - calculateMemoryGasCostIR (roundUp required))

variable (required : Nat) (s : DirectState)

@[simp] theorem grow_stack : (s.grow required).stack = s.stack := by
  rw [grow]
  split <;> rfl

@[simp] theorem grow_msizes : (s.grow required).msizes = s.msizes := by
  rw [grow]
  split <;> rfl

theorem grow_memory : (s.grow required).memory =
    s.memory ++ List.replicate (grownSize s.memory.length required - s.memory.length) 0 := by
  rw [grow, grownSize]
  split
  · rw [Nat.sub_self, List.replicate_zero, List.append_nil]
  · rfl

theorem length_grow : (s.grow required).memory.length = grownSize s.memory.length required := by
  rw [grow_memory, List.length_append, List.length_replicate]
  have le := le_grownSize s.memory.length required
  omega

theorem le_length_grow : required ≤ (s.grow required).memory.length :=
  length_grow required s ▸ required_le_grownSize _ _

theorem grow_budget (pays : Affordable s.budget required) : (s.grow required).budget = s.budget := by
  have size := length_grow required s
  rw [grow, grownSize] at *
  split
  · rfl
  · next more =>
    rw [if_neg more, if_neg more] at size
    have cost := pays.2
    rw [← gasCost_roundUp] at cost
    rw [budget, size]
    exact Nat.sub_add_cancel cost

end DirectState

theorem expandMemoryIR_eq (required : Nat) (s : DirectState) : expandMemoryIR required false s =
      if Affordable s.budget required then .ok (s.grow required) else .error .gasLimitExceeded := by
  rw [expandMemoryIR, DirectState.grow]
  by_cases large : required > maxRequiredMemorySize
  · rw [if_pos (.inr large), if_neg fun pays : Affordable _ _ => absurd pays.1 (Nat.not_le.mpr large)]
  · have fits : required ≤ maxRequiredMemorySize := Nat.le_of_not_gt large
    rw [if_neg (by simp [large])]
    by_cases more : required > s.memory.length
    · have cost := gasCost_roundUp required
      have mono : calculateMemoryGasCostIR s.memory.length ≤ calculateMemoryGasCostIR required :=
        gasCost_mono more.le
      have affords : Affordable s.budget required ↔ ¬ s.gas <
          calculateMemoryGasCostIR (roundUp required) - calculateMemoryGasCostIR s.memory.length := by
        rw [Affordable, DirectState.budget]
        omega
      rw [if_pos more, if_neg (Nat.not_le.mpr more)]
      dsimp only
      split
      · next short => rw [if_neg fun pays => affords.mp pays short]
      · next enough =>
        rw [if_pos (affords.mpr enough), DirectState.budget]
        congr 2
        omega
    · have enough : required ≤ s.memory.length := Nat.le_of_not_gt more
      have mono : calculateMemoryGasCostIR required ≤ s.budget :=
        Nat.le_trans (gasCost_mono enough) (Nat.le_add_left _ _)
      rw [if_neg more, if_pos enough, if_pos (show Affordable _ _ from ⟨fits, mono⟩)]

theorem expandMemoryIR_overflow (required : Nat) (s : DirectState) :
    expandMemoryIR required true s = .error .gasLimitExceeded :=
  if_pos (.inl rfl)

/-! ## One access -/

/-- What an access does to the state that its checks have left. -/
structure Accessed (k : MemoryOp) (offset : Nat) (value : Word) (s s' : DirectState) : Prop where
  stack : s'.stack = s.stack
  memory : s'.memory = overwrite s.memory offset (k.stored value)
  gas : s'.gas = s.gas
  msizes : s'.msizes = s.msizes

variable {k : MemoryOp} {offset : Nat} {s : DirectState} {plans : Plans} {env : BlockEnv} {op : DirectOp}

theorem access_inside (value : Word) (inside : offset + k.width ≤ s.memory.length) :
    ∃ s', access k .buffer offset value s = .ok (k.loaded s.memory offset, s') ∧
      Accessed k offset value s s' ∧ s'.memoryBaseVar = s.memoryBaseVar :=
  ⟨s.put k offset value inside, dif_pos ⟨rfl, inside⟩, ⟨rfl, rfl, rfl, rfl⟩, rfl⟩

theorem width_pos (k : MemoryOp) : 0 < k.width := by
  cases k <;> decide

theorem width_le (k : MemoryOp) : k.width ≤ 32 := by
  cases k <;> decide

theorem checkOwn_eq (small : offset < 2 ^ 64) (s : DirectState) :
    checkOwn k offset s = if Affordable s.budget (offset + k.width) then .ok (s.grow (offset + k.width))
      else .error .gasLimitExceeded := by
  have limit : maxRequiredMemorySize < 2 ^ 64 - 32 := by decide
  have width := width_le k
  simp only [checkOwn]
  by_cases fits : offset + k.width < 2 ^ 64
  · have none : decide (offset + k.width < offset) = false := decide_eq_false (by omega)
    rw [Nat.mod_eq_of_lt fits, none, expandMemoryIR_eq]
  · have wraps : (offset + k.width) % 2 ^ 64 < offset := by
      rw [Nat.mod_eq_sub_mod (Nat.le_of_not_lt fits), Nat.mod_eq_of_lt (by omega)]
      omega
    rw [decide_eq_true wraps, expandMemoryIR_overflow,
      if_neg fun pays : Affordable _ _ => absurd pays.1 (by omega)]

theorem checkAccess_of_not_linear (inactive : plans.linear.active = false) (k : MemoryOp)
    {addr : Word} (small : addr.toNat < 2 ^ 64) (s : DirectState) :
    checkAccess k addr plans s = (do
      let (shared, plans, s) ← tryConsumeConst plans s
      if shared then pure (addr.toNat, true, plans, s)
      else do
        let s ← checkOwn k addr.toNat s
        pure (addr.toNat, false, plans, s)) := by
  simp only [checkAccess]
  rw [if_neg (by simp [inactive]), directOffset, if_pos small]
  rfl

theorem checkAccess_unplanned (k : MemoryOp) (addr : Word) (s : DirectState) : checkAccess k addr .none s =
      if Affordable s.budget (addr.toNat + k.width)
        then .ok (addr.toNat, false, .none, s.grow (addr.toNat + k.width))
        else .error .gasLimitExceeded := by
  by_cases small : addr.toNat < 2 ^ 64
  · rw [checkAccess_of_not_linear rfl k small]
    show (checkOwn k addr.toNat s >>= fun s => pure (addr.toNat, false, Plans.none, s)) = _
    rw [checkOwn_eq small]
    split <;> rfl
  · have limit : maxRequiredMemorySize < 2 ^ 64 := by decide
    simp only [checkAccess]
    rw [if_neg (by simp [Plans.none]), directOffset, if_neg small,
      if_neg fun pays : Affordable _ _ => absurd pays.1 (by omega)]
    rfl

theorem handleAccess_error {e : Failure}
    (check : checkAccess k (s.stack.headD 0) (plans.prepare k s.stack) s = .error e) :
    handleAccess k plans s = .error e := by
  simp only [handleAccess, check]
  rfl

def storedValue (plans : Plans) (shared : Bool) (offset : Nat) (stack : List Word) : Word :=
  if shared && (plans.linear.active && plans.linear.coveredDirectOpsRemaining != 0 &&
    plans.linear.valueEqualsFirstAddr) then BitVec.ofNat 256 offset else stack.getD 1 0

/-- An access goes through if its offset is inside the memory and its base address is not null. -/
theorem handleAccess_ok {plans' : Plans} {g : DirectState} {shared : Bool}
    (check : checkAccess k (s.stack.headD 0) (plans.prepare k s.stack) s = .ok (offset, shared, plans', g))
    (base : (getDirectMemoryDataPointer shared g).1 = .buffer) (inside : offset + k.width ≤ g.memory.length) :
    ∃ s', handleAccess k plans s = .ok (plans', k.loaded g.memory offset, s') ∧
      Accessed k offset (storedValue plans shared offset g.stack) g s' ∧ s'.memoryBaseVar = .buffer := by
  have same : (getDirectMemoryDataPointer shared g).2.memory = g.memory := by
    cases shared <;> rfl
  have var : (getDirectMemoryDataPointer shared g).2.memoryBaseVar = .buffer := by
    cases shared <;> exact base
  obtain ⟨s', stored, accessed, kept⟩ := access_inside
    (s := (getDirectMemoryDataPointer shared g).2) (storedValue plans shared offset g.stack) (same ▸ inside)
  refine ⟨s', ?_, ⟨?_, ?_, ?_, ?_⟩, kept.trans var⟩
  · simp only [handleAccess, check]
    show (do
      let (loaded, s) ← access k (getDirectMemoryDataPointer shared g).1 offset
        (storedValue plans shared offset g.stack) (getDirectMemoryDataPointer shared g).2
      pure (plans', loaded, s)) = _
    rw [base, stored, same]
    rfl
  · exact accessed.stack.trans (by cases shared <;> rfl)
  · exact accessed.memory.trans (by rw [same])
  · exact accessed.gas.trans (by cases shared <;> rfl)
  · exact accessed.msizes.trans (by cases shared <;> rfl)

theorem handleAccess_null {plans' : Plans} {g : DirectState}
    (check : checkAccess k (s.stack.headD 0) (plans.prepare k s.stack) s = .ok (offset, true, plans', g))
    (base : g.memoryBaseVar = .null) : handleAccess k plans s = .error .badAccess := by
  have bad (value : Word) : access k g.memoryBaseVar offset value g = .error .badAccess := by
    rw [access, dif_neg]
    rw [base]
    exact fun h => nomatch h.1
  simp only [handleAccess, check]
  show (do
    let (loaded, s) ← access k g.memoryBaseVar offset (storedValue plans true offset g.stack) g
    pure (plans', loaded, s)) = _
  rw [bad]
  rfl

theorem prepare_none (k : MemoryOp) (stack : List Word) : Plans.none.prepare k stack = .none := by
  simp [Plans.prepare, Plans.none]

def DirectState.addr (s : DirectState) : Nat := (s.stack.headD 0).toNat

theorem handleAccess_unplanned_short (short : ¬ Affordable s.budget (s.addr + k.width)) :
    handleAccess k .none s = .error .gasLimitExceeded := by
  apply handleAccess_error
  rw [prepare_none, checkAccess_unplanned]
  exact if_neg short

theorem handleAccess_unplanned (pays : Affordable s.budget (s.addr + k.width)) : ∃ s', handleAccess k .none s =
        .ok (.none, k.loaded (s.grow (s.addr + k.width)).memory s.addr, s') ∧
      Accessed k s.addr (s.stack.getD 1 0) (s.grow (s.addr + k.width)) s' := by
  have check : checkAccess k (s.stack.headD 0) (Plans.none.prepare k s.stack) s =
      .ok (s.addr, false, .none, s.grow (s.addr + k.width)) := by
    rw [prepare_none, checkAccess_unplanned]
    exact if_pos pays
  have inside := s.le_length_grow (s.addr + k.width)
  have base : (s.grow (s.addr + k.width)).memoryBase = .buffer := by
    apply DirectState.allocated
    have pos := width_pos k
    omega
  obtain ⟨s', runs, accessed, -⟩ := handleAccess_ok check base inside
  rw [DirectState.grow_stack] at accessed
  exact ⟨s', runs, accessed⟩

/-! ## One opcode -/

def DirectOp.Runs (env : BlockEnv) (op : DirectOp) (stack : List Word) : Prop :=
  ¬ (op = .push0 ∧ env.rev < .shanghai) ∧ op.stackOp.need ≤ stack.length

theorem directStep_not_runs (plans : Plans)
    (stops : ¬ op.Runs env s.stack) : ∃ e, directStep env op plans s = .error e := by
  rw [DirectOp.Runs, not_and_or, not_not, Nat.not_le] at stops
  rw [directStep]
  split
  · exact ⟨_, rfl⟩
  · next there => exact ⟨_, if_pos (stops.resolve_left there)⟩

theorem directStep_runs (runs : op.Runs env s.stack) : directStep env op plans s = directEffect env op plans s := by
  rw [directStep, if_neg runs.1, if_neg (Nat.not_lt.mpr runs.2)]

theorem directStep_memory (runs : (DirectOp.memory k).Runs env s.stack) :
    directStep env (.memory k) plans s = (handleAccess k plans s).map fun (plans, loaded, s) =>
      (plans, { s with stack := (DirectOp.memory k).stackOp.run loaded s.stack }) := by
  rw [directStep_runs runs]
  show (handleAccess k plans s >>= _) = _
  cases handleAccess k plans s <;> rfl

theorem directStep_memory_ok {plans' : Plans} {s' : DirectState}
    {loaded : List Word} (runs : (DirectOp.memory k).Runs env s.stack)
    (handled : handleAccess k plans s = .ok (plans', loaded, s')) : directStep env (.memory k) plans s =
      .ok (plans', { s' with stack := (DirectOp.memory k).stackOp.run loaded s'.stack }) := by
  rw [directStep_memory runs, handled]
  rfl

theorem directStep_msize :
    directStep env .msize plans s = .ok (plans, { s with
      stack := BitVec.ofNat 256 s.memory.length :: s.stack
      msizes := s.msizes ++ [s.memory.length] }) :=
  directStep_runs ⟨fun h => (nomatch h.1), Nat.zero_le _⟩

/-- The opcode neither accesses the memory nor looks at its size. -/
def DirectOp.isStackOnly : DirectOp → Bool
  | .memory _ | .msize => false
  | _ => true

theorem directStep_stackOnly (only : op.isStackOnly = true) (runs : op.Runs env s.stack) : directStep env op plans s =
      .ok (plans, { s with stack := op.stackOp.run (op.given env s.stack) s.stack }) := by
  rw [directStep_runs runs]
  cases op with
  | memory k | msize => cases only
  | _ => rfl

/-! ## Memory that has grown ahead of its use -/

theorem overwrite_append {x bytes : Bytes} (inside : offset + bytes.length ≤ x.length)
    (z : Bytes) : overwrite (x ++ z) offset bytes = overwrite x offset bytes ++ z := by
  rw [overwrite, overwrite, List.take_append_of_le_length (by omega), List.drop_append_of_le_length inside,
    List.append_assoc, List.append_assoc, List.append_assoc]

theorem MemoryOp.loaded_append {x : Bytes}
    (inside : offset + k.width ≤ x.length) (z : Bytes) : k.loaded (x ++ z) offset = k.loaded x offset := by
  cases k with
  | mload =>
    rw [width] at inside
    have enough : 32 ≤ (x.drop offset).length := by
      rw [List.length_drop]
      omega
    rw [loaded, loaded, List.drop_append_of_le_length (by omega), List.take_append_of_le_length enough]
  | mstore | mstore8 => rfl

/-- The memory of the first state has grown to a size that the second one will reach later. -/
structure Ahead (size : Nat) (t s : DirectState) : Prop where
  stack : t.stack = s.stack
  msizes : t.msizes = s.msizes
  memory : t.memory = s.memory ++ List.replicate (size - s.memory.length) 0
  le : s.memory.length ≤ size
  budget : t.budget = s.budget
  base : t.memoryBaseVar = .buffer

namespace Ahead

variable {size : Nat} {t s t' s' : DirectState} {k : MemoryOp}

theorem length (h : Ahead size t s) : t.memory.length = size := by
  rw [h.memory, List.length_append, List.length_replicate]
  have le := h.le
  omega

theorem eq (h : Ahead size t s) (reached : s.memory.length = size) : t.memory = s.memory ∧ t.gas = s.gas := by
  have memory : t.memory = s.memory := by
    rw [h.memory, reached, Nat.sub_self, List.replicate_zero, List.append_nil]
  have budget := h.budget
  rw [DirectState.budget, DirectState.budget, memory] at budget
  exact ⟨memory, Nat.add_right_cancel budget⟩

theorem grow {required : Nat} (pays : Affordable s.budget required)
    (base : s.memoryBaseVar = .buffer ∨ s.memory.length < required) :
    Ahead (grownSize s.memory.length required) (s.grow required) s where
  stack := s.grow_stack required
  msizes := s.grow_msizes required
  memory := s.grow_memory required
  le := le_grownSize _ _
  budget := s.grow_budget required pays
  base := by
    rw [DirectState.grow]
    split
    · next enough => exact base.resolve_right (Nat.not_lt.mpr enough)
    · rfl

theorem withStack (h : Ahead size t s) (stack : List Word) :
    Ahead size { t with stack := stack } { s with stack := stack } :=
  ⟨rfl, h.msizes, h.memory, h.le, h.budget, h.base⟩

variable {offset : Nat} {value : Word} {env : BlockEnv}

theorem length_accessed (h : Accessed k offset value s s')
    (inside : offset + k.width ≤ s.memory.length) : s'.memory.length = s.memory.length := by
  rw [h.memory, length_overwrite (Nat.le_trans (Nat.add_le_add_left (k.length_stored value) _) inside)]

theorem budget_accessed (h : Accessed k offset value s s')
    (inside : offset + k.width ≤ s.memory.length) : s'.budget = s.budget := by
  rw [DirectState.budget, DirectState.budget, length_accessed h inside, h.gas]

variable (h : Ahead size t s)

include h

theorem grow_right {required : Nat} (pays : Affordable s.budget required)
    (fits : grownSize s.memory.length required ≤ size) : Ahead size t (s.grow required) where
  stack := h.stack.trans (s.grow_stack required).symm
  msizes := h.msizes.trans (s.grow_msizes required).symm
  memory := by
    have le := le_grownSize s.memory.length required
    rw [h.memory, DirectState.length_grow, DirectState.grow_memory, List.append_assoc, List.replicate_append_replicate]
    congr 2
    omega
  le := by
    rw [DirectState.length_grow]
    exact fits
  budget := h.budget.trans (s.grow_budget required pays).symm
  base := h.base

theorem access (inside : offset + k.width ≤ s.memory.length) (first : Accessed k offset value t t')
    (second : Accessed k offset value s s') (base : t'.memoryBaseVar = .buffer) :
    Ahead size t' s' ∧ k.loaded t.memory offset = k.loaded s.memory offset := by
  have stored := Nat.le_trans (Nat.add_le_add_left (k.length_stored value) offset) inside
  have outer : offset + k.width ≤ t.memory.length := by
    rw [h.length]
    exact Nat.le_trans inside h.le
  refine ⟨⟨?_, ?_, ?_, ?_, ?_, base⟩, ?_⟩
  · rw [first.stack, second.stack, h.stack]
  · rw [first.msizes, second.msizes, h.msizes]
  · rw [length_accessed second inside, first.memory, second.memory, h.memory, overwrite_append stored]
  · rw [length_accessed second inside]
    exact h.le
  · rw [budget_accessed first outer, budget_accessed second inside, h.budget]
  · rw [h.memory, MemoryOp.loaded_append inside]

omit h in
theorem step_own (runs : (DirectOp.memory k).Runs env s.stack) (pays : Affordable s.budget (s.addr + k.width)) :
    ∃ s', directStep env (.memory k) .none s = .ok (.none, s') ∧
      s'.stack = (DirectOp.memory k).stackOp.run (k.loaded (s.grow (s.addr + k.width)).memory s.addr) s.stack ∧
      s'.budget = s.budget ∧ s'.memory.length = grownSize s.memory.length (s.addr + k.width) ∧
      s'.msizes = s.msizes := by
  obtain ⟨s', handled, accessed⟩ := handleAccess_unplanned pays
  have inside := s.le_length_grow (s.addr + k.width)
  refine ⟨_, directStep_memory_ok runs handled, ?_, ?_, ?_, ?_⟩
  · show (DirectOp.memory k).stackOp.run _ s'.stack = _
    rw [accessed.stack, DirectState.grow_stack]
  · exact (budget_accessed accessed inside).trans (s.grow_budget _ pays)
  · show s'.memory.length = _
    rw [length_accessed accessed inside, DirectState.length_grow]
  · exact accessed.msizes.trans (s.grow_msizes _)

/-- **An access that is covered on one side** and checks for itself on the other. -/
theorem covered (runs : (DirectOp.memory k).Runs env s.stack) {plans plans' : Plans}
    (check : checkAccess k (t.stack.headD 0) (plans.prepare k t.stack) t = .ok (s.addr, true, plans', t))
    (value : storedValue plans true s.addr t.stack = s.stack.getD 1 0) (pays : Affordable s.budget (s.addr + k.width))
    (fits : grownSize s.memory.length (s.addr + k.width) ≤ size)
    (own : directStep env (.memory k) .none s = .ok (.none, s')) :
    ∃ t', directStep env (.memory k) plans t = .ok (plans', t') ∧ Ahead size t' s' := by
  have inside : s.addr + k.width ≤ t.memory.length := by
    rw [h.length]
    exact Nat.le_trans (required_le_grownSize _ _) fits
  obtain ⟨t', first, first_accessed, base⟩ := handleAccess_ok check h.base inside
  obtain ⟨s', second, second_accessed⟩ := handleAccess_unplanned pays
  cases own.symm.trans (directStep_memory_ok runs second)
  rw [value] at first_accessed
  obtain ⟨after, loaded⟩ := (h.grow_right pays fits).access (s.le_length_grow _) first_accessed second_accessed base
  refine ⟨_, directStep_memory_ok (h.stack ▸ runs) first, ?_⟩
  rw [loaded, after.stack]
  exact after.withStack _

theorem step {op : DirectOp} (runs : op.Runs env s.stack)
    (other : ∀ k, op ≠ .memory k) (seen : op = .msize → s.memory.length = size) (plans : Plans)
    (own : directStep env op .none s = .ok (.none, s')) :
    ∃ t', directStep env op plans t = .ok (plans, t') ∧ Ahead size t' s' := by
  cases only : op.isStackOnly with
  | true =>
    cases own.symm.trans (directStep_stackOnly only runs)
    refine ⟨_, directStep_stackOnly only (h.stack ▸ runs), ?_⟩
    rw [h.stack]
    exact h.withStack _
  | false =>
    cases op with
    | memory k => exact absurd rfl (other k)
    | msize =>
      cases own.symm.trans directStep_msize
      refine ⟨_, directStep_msize, ⟨?_, ?_, h.memory, h.le, h.budget, h.base⟩⟩
      · show BitVec.ofNat 256 t.memory.length :: t.stack = _
        rw [h.length, ← seen rfl, h.stack]
      · show t.msizes ++ [t.memory.length] = _
        rw [h.length, ← seen rfl, h.msizes]
    | _ => cases only

end Ahead

end Dtvm.Jit
