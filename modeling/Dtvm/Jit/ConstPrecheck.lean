import Dtvm.Jit.DirectMemory
import Dtvm.Jit.Lifted

/-!
# One check for accesses at constant addresses

`analyzeConstDirectMemoryBlockPrecheck` runs a block on what it knows of its constants. If it knows the address of
every access, one check at the first access stands for all.

This is not visible in what accesses read and write, nor in what they cost. It is visible in what `MSIZE` pushes
between two accesses, and it relies on the copy of the base address, which is not brought up to date when a call
into the runtime has grown the memory. `constPrecheck_invisible_iff` says when neither shows.
-/

namespace Dtvm.Jit

open OperandStack

/-! ## The analysis -/

/-- What a block does to the memory: an access that needs a size, or `MSIZE`. -/
inductive MemoryEvent where
  | access (required : Nat)
  | msize
deriving DecidableEq, Repr

abbrev AbstractConstU64 := Option Nat

def addConstU64 (lhs rhs : Nat) : Option Nat := if 2 ^ 64 - 1 - lhs < rhs then none else some (lhs + rhs)

/-- What the analysis knows of the words that an opcode pushes. -/
def DirectOp.simGiven (sim : List AbstractConstU64) : DirectOp → List AbstractConstU64
  | .push0 => [some 0]
  | .push n v => [if n ≤ 8 then some v.toNat else none]
  | .add => [do addConstU64 (← sim.headD none) (← sim.getD 1 none)]
  | .sub => [do
      let lhs ← sim.headD none let rhs ← sim.getD 1 none if lhs ≥ rhs then some (lhs - rhs) else none]
  | .msize | .memory .mload => [none]
  | _ => []

def DirectOp.simEvents (sim : List AbstractConstU64) : DirectOp → Option (List MemoryEvent)
  | .memory k => do
    let addr ← sim.headD none
    let required ← addConstU64 addr k.width
    pure [.access required]
  | .msize => some [.msize]
  | .calldataload => none
  | _ => some []

/-- The case of an opcode in the loop of `analyzeConstDirectMemoryBlockPrecheck`. -/
def simStep (op : DirectOp) (sim : List AbstractConstU64) :
    Option (List AbstractConstU64 × List MemoryEvent) :=
  if sim.length < op.stackOp.need then none
  else do
    let events ← op.simEvents sim
    pure (op.stackOp.run (op.simGiven sim) sim, events)

/-- `BlockConstPrecheckPlan`. -/
structure ConstPrecheckPlan where
  maxRequiredSize : Nat := 0
  coveredDirectOps : Nat := 0
deriving DecidableEq, Repr

/-- `Eligible`: `SawDirectMemory` is set by the first covered access. -/
def ConstPrecheckPlan.eligible (plan : ConstPrecheckPlan) : Bool := decide (2 ≤ plan.coveredDirectOps)

def ConstPrecheckPlan.note (plan : ConstPrecheckPlan) : MemoryEvent → ConstPrecheckPlan
  | .access required => ⟨max plan.maxRequiredSize required, plan.coveredDirectOps + 1⟩
  | .msize => plan

def isBlockTerminatorOpcode : Opcode → Bool
  | .jump | .jumpi | .return' | .stop | .invalid | .revert | .selfdestruct => true
  | _ => false

/-- The opcode at a program counter, if it is one of those that compiled blocks access memory with. -/
def directOp (code : Bytes) (pc : Nat) : Option DirectOp :=
  match opAt code pc with
  | .jumpdest => some .jumpdest
  | .push0 => some .push0
  | .push n => some (.push n (Cache.loadPushValue code pc n))
  | .dup n => some (.dup n)
  | .swap n => some (.swap n)
  | .pop => some .pop
  | .add => some .add
  | .sub => some .sub
  | .calldataload => some .calldataload
  | .msize => some .msize
  | .mload => some (.memory .mload)
  | .mstore => some (.memory .mstore)
  | .mstore8 => some (.memory .mstore8)
  | _ => none

def parsePushConstU64 (code : Bytes) (immediatePC numBytes : Nat) : Option Nat :=
  if numBytes > 8 then none
  else if immediatePC + numBytes > code.length then none
  else some ((List.range numBytes).foldl
    (fun value i => (value * 256 + (byteAt code (immediatePC + i)).toNat) % 2 ^ 64) 0)

/-- The opcode as the analysis reads it: the immediate of a `PUSH` must be there, up to one byte if it is
longer than 8. -/
def scannedOp (code : Bytes) (pc : Nat) : Option DirectOp :=
  match opAt code pc with
  | .push n =>
    if n ≤ 8 then do
      let value ← parsePushConstU64 code (pc + 1) n
      pure (.push n (BitVec.ofNat 256 value))
    else if n > code.length - pc then none
    else directOp code pc
  | _ => directOp code pc

/-- The loop of `analyzeConstDirectMemoryBlockPrecheck`; one unit of fuel for each byte is enough. The
opcodes of `isHelperSensitiveOpcode` are not among those that it accepts. -/
def constPrecheckLoop (code : Bytes) (entryPC : Nat) :
    Nat → Nat → List AbstractConstU64 → ConstPrecheckPlan → Option ConstPrecheckPlan
  | 0, _, _, plan => some plan
  | fuel + 1, pc, sim, plan =>
    if code.length ≤ pc then some plan
    else if pc ≠ entryPC ∧ opAt code pc = .jumpdest then some plan
    else if isBlockTerminatorOpcode (opAt code pc) then some plan
    else do
      let op ← scannedOp code pc
      let (sim, events) ← simStep op sim
      constPrecheckLoop code entryPC fuel (pc + (opAt code pc).len) sim (events.foldl .note plan)

/-- `analyzeConstDirectMemoryBlockPrecheck`: the plan of an eligible block. -/
def analyzeConstPrecheck (code : Bytes) (entryPC : Nat) : Option ConstPrecheckPlan :=
  (constPrecheckLoop code entryPC code.length entryPC [] {}).filter ConstPrecheckPlan.eligible

/-- The opcodes of a block up to its end, or to an opcode that has no part in plans. -/
def blockOps (code : Bytes) (entryPC : Nat) : Nat → Nat → List DirectOp
  | 0, _ => []
  | fuel + 1, pc =>
    if code.length ≤ pc then []
    else if pc ≠ entryPC ∧ opAt code pc = .jumpdest then []
    else match directOp code pc with
      | none => []
      | some op => op :: blockOps code entryPC fuel (pc + (opAt code pc).len)

/-! ## The analysis and the block -/

theorem parsePushConstU64_eq {code : Bytes} {pc n value : Nat}
    (parsed : parsePushConstU64 code (pc + 1) n = some value) :
    BitVec.ofNat 256 value = Cache.loadPushValue code pc n := by
  rw [parsePushConstU64] at parsed
  split at parsed
  · cases parsed
  · next short =>
    split at parsed
    · cases parsed
    · next inside =>
      cases parsed
      have bytes : (List.range n).map (fun i => byteAt code (pc + 1 + i)) = immediate code pc n := by
        rw [← Analyzer.map_readPushByte]
        apply List.map_congr_left
        intro i mem
        rw [Analyzer.readPushByte, if_pos]
        have lt := List.mem_range.mp mem
        omega
      have small : beNat (immediate code pc n) < 2 ^ 64 := by
        refine Nat.lt_of_lt_of_le (beNat_lt _) ?_
        rw [length_immediate]
        calc 256 ^ n ≤ 256 ^ 8 := Nat.pow_le_pow_right (by decide) (by omega)
          _ = 2 ^ 64 := by decide
      apply BitVec.eq_of_toNat_eq
      rw [foldl_low, bytes, toNat_loadPushValue code pc (by omega), BitVec.toNat_ofNat,
        Nat.mod_eq_of_lt small]
      exact Nat.mod_eq_of_lt (Nat.lt_trans small (by decide))

theorem directOp_of_scannedOp {code : Bytes} {pc : Nat} {op : DirectOp}
    (scanned : scannedOp code pc = some op) : directOp code pc = some op := by
  rw [scannedOp] at scanned
  split at scanned
  · next n push =>
    split at scanned
    · obtain ⟨value, parsed, known⟩ := Option.bind_eq_some_iff.mp scanned
      cases known
      rw [directOp, push, parsePushConstU64_eq parsed]
    · split at scanned
      · cases scanned
      · exact scanned
  · exact scanned

/-- The events of a block, if the analysis accepts all its opcodes. -/
def simRun : List DirectOp → List AbstractConstU64 → Option (List MemoryEvent)
  | [], _ => some []
  | op :: ops, sim => do
    let (sim, events) ← simStep op sim
    let rest ← simRun ops sim
    pure (events ++ rest)

theorem directOp_terminator {code : Bytes} {pc : Nat} (ends : isBlockTerminatorOpcode (opAt code pc) = true) :
    directOp code pc = none := by
  rw [directOp]
  cases op : opAt code pc <;> rw [op] at ends <;> first | rfl | cases ends

theorem constPrecheckLoop_events {code : Bytes} {entryPC : Nat} {fuel pc : Nat}
    {sim : List AbstractConstU64} {plan plan' : ConstPrecheckPlan}
    (loop : constPrecheckLoop code entryPC fuel pc sim plan = some plan') :
    ∃ events, simRun (blockOps code entryPC fuel pc) sim = some events ∧ plan' = events.foldl .note plan := by
  induction fuel generalizing pc sim plan with
  | zero =>
    cases loop
    exact ⟨[], rfl, rfl⟩
  | succ fuel ih =>
    rw [constPrecheckLoop] at loop
    rw [blockOps]
    split at loop
    · next past =>
      cases loop
      rw [if_pos past]
      exact ⟨[], rfl, rfl⟩
    · next inside =>
      rw [if_neg inside]
      split at loop
      · next dest =>
        cases loop
        rw [if_pos dest]
        exact ⟨[], rfl, rfl⟩
      · next notDest =>
        rw [if_neg notDest]
        split at loop
        · next ends =>
          cases loop
          rw [directOp_terminator ends]
          exact ⟨[], rfl, rfl⟩
        · obtain ⟨op, scanned, loop⟩ := Option.bind_eq_some_iff.mp loop
          obtain ⟨⟨sim', events⟩, stepped, loop⟩ := Option.bind_eq_some_iff.mp loop
          obtain ⟨rest, ran, rfl⟩ := ih loop
          rw [directOp_of_scannedOp scanned]
          refine ⟨events ++ rest, ?_, (List.foldl_append ..).symm⟩
          rw [simRun, stepped]
          show (simRun _ sim' >>= fun rest => pure (events ++ rest)) = _
          rw [ran]
          rfl

/-! ## What the analysis knows -/

def AbstractConstU64.Describes (v : AbstractConstU64) (w : Word) : Prop := ∀ n, v = some n → w.toNat = n

theorem describes_none (w : Word) : AbstractConstU64.Describes none w := fun _ h => nomatch h

/-- What the analysis knows of a stack: the values on top that the block itself has pushed. -/
def SimMatches (sim : List AbstractConstU64) (stack : List Word) : Prop :=
  ∃ top below, stack = top ++ below ∧ List.Forall₂ AbstractConstU64.Describes sim top

namespace SimMatches

variable {sim : List AbstractConstU64} {stack : List Word}

variable (h : SimMatches sim stack)

include h

theorem length_le : sim.length ≤ stack.length := by
  obtain ⟨top, below, rfl, described⟩ := h
  rw [List.length_append, described.length_eq]
  exact Nat.le_add_right _ _

theorem get {i n : Nat} (known : sim.getD i none = some n) : (stack.getD i 0).toNat = n := by
  obtain ⟨top, below, rfl, described⟩ := h
  have rel := Op.forall₂_getElem? described i
  rw [List.getD_eq_getElem?_getD] at known
  revert rel known
  cases sim[i]? with
  | none => exact fun known _ => nomatch known
  | some v =>
    intro known rel
    cases w : top[i]? with
    | none => rw [w] at rel; cases rel
    | some word =>
      rw [w] at rel
      cases rel with
      | some describes =>
        have inside := (List.getElem?_eq_some_iff.mp w).1
        rw [List.getD_eq_getElem?_getD, List.getElem?_append_left inside, w]
        exact describes n known

theorem head {n : Nat} (known : sim.headD none = some n) : (stack.headD 0).toNat = n := by
  rw [List.headD_eq_getD] at known ⊢
  exact h.get known

/-- An opcode keeps what is known if the analysis is right about what it pushes. -/
theorem run {op : Op} (deep : op.need ≤ sim.length) {given : List AbstractConstU64} {words : List Word}
    (new : List.Forall₂ AbstractConstU64.Describes given words) :
    SimMatches (op.run given sim) (op.run words stack) := by
  obtain ⟨top, below, rfl, described⟩ := h
  refine ⟨op.run words top, below, ?_, Op.forall₂_run described new⟩
  exact Op.run_append (described.length_eq ▸ deep) _ _

end SimMatches

theorem addConstU64_eq {a b n : Nat} (sum : addConstU64 a b = some n) :
    n = a + b ∧ (0 < b → n < 2 ^ 64) ∧ (n < 2 ^ 64 ∨ n = a) := by
  rw [addConstU64] at sum
  split at sum
  · cases sum
  · cases sum
    omega

variable {env : BlockEnv} {op : DirectOp} {ops : List DirectOp} {k : MemoryOp} {sim sim' : List AbstractConstU64}
  {events : List MemoryEvent} {s t : DirectState}

theorem simGiven_describes {stack : List Word} (h : SimMatches sim stack) (only : op.isStackOnly = true)
    (accepted : op ≠ .calldataload) :
    List.Forall₂ AbstractConstU64.Describes (op.simGiven sim) (op.given env stack) := by
  cases op with
  | push0 => exact .cons (fun n known => Option.some.inj known) .nil
  | push n v =>
    refine .cons (fun m known => ?_) .nil
    split at known
    · exact Option.some.inj known
    · cases known
  | add =>
    refine .cons (fun n known => ?_) .nil
    obtain ⟨a, first, known⟩ := Option.bind_eq_some_iff.mp known
    obtain ⟨b, second, sum⟩ := Option.bind_eq_some_iff.mp known
    have left := h.head first
    have right := h.get second
    obtain ⟨rfl, -, small⟩ := addConstU64_eq sum
    have bound := (stack.headD 0).isLt
    rw [BitVec.toNat_add, left, right]
    exact Nat.mod_eq_of_lt (by omega)
  | sub =>
    refine .cons (fun n known => ?_) .nil
    obtain ⟨a, first, known⟩ := Option.bind_eq_some_iff.mp known
    obtain ⟨b, second, difference⟩ := Option.bind_eq_some_iff.mp known
    have left := h.head first
    have right := h.get second
    split at difference
    · next le =>
      cases difference
      have bound := (stack.headD 0).isLt
      rw [BitVec.toNat_sub, left, right]
      omega
    · cases difference
  | jumpdest | dup _ | swap _ | pop => exact .nil
  | calldataload => exact absurd rfl accepted
  | msize | memory _ => cases only

structure SimStep (op : DirectOp) (sim sim' : List AbstractConstU64) (events : List MemoryEvent) : Prop where
  deep : op.stackOp.need ≤ sim.length
  events : op.simEvents sim = some events
  stack : sim' = op.stackOp.run (op.simGiven sim) sim

theorem SimStep.of_eq (eq : simStep op sim = some (sim', events)) : SimStep op sim sim' events := by
  rw [simStep] at eq
  split at eq
  · cases eq
  · next deep =>
    obtain ⟨events', noted, same⟩ := Option.bind_eq_some_iff.mp eq
    cases same
    exact ⟨Nat.le_of_not_lt deep, noted, rfl⟩

theorem SimStep.access (h : SimStep (.memory k) sim sim' events) (describes : SimMatches sim s.stack) :
    events = [.access (s.addr + k.width)] ∧ s.addr + k.width < 2 ^ 64 := by
  have noted := h.events
  obtain ⟨addr, known, noted⟩ := Option.bind_eq_some_iff.mp noted
  obtain ⟨required, sum, noted⟩ := Option.bind_eq_some_iff.mp noted
  cases noted
  obtain ⟨rfl, small, -⟩ := addConstU64_eq sum
  have addr_eq : s.addr = addr := describes.head known
  rw [addr_eq]
  exact ⟨rfl, small (width_pos k)⟩

/-! ## Events -/

def MemoryEvent.required : MemoryEvent → Nat
  | .access required => required
  | .msize => 0

def maxRequired (events : List MemoryEvent) : Nat := events.foldr (fun e m => max e.required m) 0

def accesses (events : List MemoryEvent) : Nat := events.countP (· != .msize)

/-- The sizes that `MSIZE` pushes if every access grows the memory for itself. -/
def sizesSeen (size : Nat) : List MemoryEvent → List Nat
  | [] => []
  | .msize :: events => size :: sizesSeen size events
  | .access required :: events => sizesSeen (grownSize size required) events

theorem maxRequired_cons (e : MemoryEvent) (events : List MemoryEvent) :
    maxRequired (e :: events) = max e.required (maxRequired events) := rfl

theorem maxRequired_append (first second : List MemoryEvent) :
    maxRequired (first ++ second) = max (maxRequired first) (maxRequired second) := by
  induction first with
  | nil => exact (Nat.max_eq_right (Nat.zero_le _)).symm
  | cons e first ih => rw [List.cons_append, maxRequired_cons, maxRequired_cons, ih, Nat.max_assoc]

theorem grownSize_zero (size : Nat) : grownSize size 0 = size := if_pos (Nat.zero_le _)

theorem sizesSeen_append (size : Nat) (first second : List MemoryEvent) : sizesSeen size (first ++ second) =
      sizesSeen size first ++ sizesSeen (grownSize size (maxRequired first)) second := by
  induction first generalizing size with
  | nil => rw [List.nil_append, maxRequired, List.foldr_nil, grownSize_zero]; rfl
  | cons e first ih =>
    cases e with
    | msize =>
      have same : maxRequired (.msize :: first) = maxRequired first := Nat.max_eq_right (Nat.zero_le _)
      rw [same]
      exact congrArg (size :: ·) (ih size)
    | access required =>
      have grown : grownSize size (maxRequired (.access required :: first)) =
          grownSize (grownSize size required) (maxRequired first) := (grownSize_grownSize _ _ _).symm
      rw [grown]
      exact ih _

theorem foldl_note (events : List MemoryEvent) (plan : ConstPrecheckPlan) : events.foldl .note plan =
      ⟨max plan.maxRequiredSize (maxRequired events), plan.coveredDirectOps + accesses events⟩ := by
  induction events generalizing plan with
  | nil =>
    rw [maxRequired, List.foldr_nil, Nat.max_eq_left (Nat.zero_le _)]
    rfl
  | cons e events ih =>
    rw [List.foldl_cons, ih, maxRequired_cons]
    cases e with
    | msize => rw [MemoryEvent.required, Nat.max_eq_right (Nat.zero_le (maxRequired events))]; rfl
    | access required =>
      have count : accesses (.access required :: events) = accesses events + 1 := List.countP_cons_of_pos rfl
      rw [count, ConstPrecheckPlan.note, MemoryEvent.required, Nat.max_assoc, Nat.add_assoc, Nat.add_comm 1]

theorem affordable_max {budget a b : Nat} :
    Affordable budget (max a b) ↔ Affordable budget a ∧ Affordable budget b := by
  constructor
  · intro pays
    exact ⟨pays.mono (Nat.le_max_left _ _), pays.mono (Nat.le_max_right _ _)⟩
  · rintro ⟨first, second⟩
    rcases Nat.le_total a b with le | le
    · rwa [Nat.max_eq_right le]
    · rwa [Nat.max_eq_left le]

/-! ## Blocks that check every access -/

def DirectOp.Defined (env : BlockEnv) (op : DirectOp) : Prop := ¬ (op = .push0 ∧ env.rev < .shanghai)

theorem SimStep.runs (h : SimStep op sim sim' events) {stack : List Word}
    (describes : SimMatches sim stack) (defined : op.Defined env) : op.Runs env stack :=
  ⟨defined, Nat.le_trans h.deep describes.length_le⟩

/-- The state after an opcode, and what the analysis knows of it. -/
structure Stepped (events : List MemoryEvent) (sim' : List AbstractConstU64) (s s' : DirectState) :
    Prop where
  describes : SimMatches sim' s'.stack
  budget : s'.budget = s.budget
  size : s'.memory.length = grownSize s.memory.length (maxRequired events)
  msizes : s'.msizes = s.msizes ++ sizesSeen s.memory.length events

theorem SimStep.plain (h : SimStep op sim sim' events)
    (describes : SimMatches sim s.stack) (defined : op.Defined env) (other : ∀ k, op ≠ .memory k) :
    ∃ s', (∀ plans, directStep env op plans s = .ok (plans, s')) ∧ Stepped events sim' s s' ∧
      s'.memory = s.memory ∧ s'.gas = s.gas ∧ s'.memoryBaseVar = s.memoryBaseVar ∧ maxRequired events = 0 := by
  have runs := h.runs describes defined
  cases only : op.isStackOnly with
  | true =>
    have accepted : op ≠ .calldataload := by
      rintro rfl
      exact nomatch h.events
    have none : events = [] := by
      have noted := h.events
      cases op with
      | memory k | msize => cases only
      | calldataload => exact absurd rfl accepted
      | _ =>
        cases noted
        rfl
    subst none
    refine ⟨_, fun _ => directStep_stackOnly only runs, ⟨?_, rfl, (grownSize_zero _).symm, ?_⟩,
      rfl, rfl, rfl, rfl⟩
    · rw [h.stack]
      exact describes.run h.deep (simGiven_describes describes only accepted)
    · exact (List.append_nil _).symm
  | false =>
    cases op with
    | memory k => exact absurd rfl (other k)
    | msize =>
      have noted := h.events
      cases noted
      refine ⟨_, fun _ => directStep_msize, ⟨?_, rfl, (grownSize_zero _).symm, rfl⟩, rfl, rfl, rfl, rfl⟩
      rw [h.stack]
      have new : List.Forall₂ AbstractConstU64.Describes [none] [BitVec.ofNat 256 s.memory.length] :=
        .cons (describes_none _) .nil
      exact describes.run h.deep new
    | _ => cases only

theorem loaded_describes (k : MemoryOp) (sim : List AbstractConstU64) (memory : Bytes) (offset : Nat) :
    List.Forall₂ AbstractConstU64.Describes ((DirectOp.memory k).simGiven sim) (k.loaded memory offset) := by
  cases k with
  | mload => exact .cons (describes_none _) .nil
  | mstore | mstore8 => exact .nil

theorem maxRequired_access (required : Nat) : maxRequired [.access required] = required :=
  Nat.max_eq_left (Nat.zero_le _)

theorem memory_defined (env : BlockEnv) (k : MemoryOp) : (DirectOp.memory k).Defined env :=
  fun h => nomatch h.1

theorem SimStep.own (h : SimStep (.memory k) sim sim' events)
    (describes : SimMatches sim s.stack) (pays : Affordable s.budget (maxRequired events)) :
    ∃ s', directStep env (.memory k) .none s = .ok (.none, s') ∧ Stepped events sim' s s' := by
  obtain ⟨rfl, -⟩ := h.access describes
  rw [maxRequired_access] at pays
  obtain ⟨s', step, stack, budget, size, msizes⟩ :=
    Ahead.step_own (h.runs describes (memory_defined env k)) pays
  refine ⟨s', step, ⟨?_, budget, ?_, ?_⟩⟩
  · rw [h.stack, stack]
    exact describes.run h.deep (loaded_describes k sim _ _)
  · rw [size, maxRequired_access]
  · rw [msizes]
    exact (List.append_nil _).symm

theorem SimStep.own_short (h : SimStep (.memory k) sim sim' events)
    (describes : SimMatches sim s.stack) (short : ¬ Affordable s.budget (maxRequired events)) :
    directStep env (.memory k) .none s = .error .gasLimitExceeded := by
  obtain ⟨rfl, -⟩ := h.access describes
  rw [maxRequired_access] at short
  rw [directStep_memory (h.runs describes (memory_defined env k)), handleAccess_unplanned_short short]
  rfl

/-- **An opcode** of a block that checks every access. -/
theorem SimStep.unplanned (h : SimStep op sim sim' events)
    (describes : SimMatches sim s.stack) (defined : op.Defined env) (pays : Affordable s.budget (maxRequired events)) :
    ∃ s', directStep env op .none s = .ok (.none, s') ∧ Stepped events sim' s s' := by
  by_cases isAccess : ∃ k, op = .memory k
  · obtain ⟨k, rfl⟩ := isAccess
    exact h.own describes pays
  · obtain ⟨s', runs, stepped, -⟩ := h.plain describes defined fun k eq => isAccess ⟨k, eq⟩
    exact ⟨s', runs _, stepped⟩

theorem simRun_cons (eq : simRun (op :: ops) sim = some events) :
    ∃ sim' first rest, SimStep op sim sim' first ∧ simRun ops sim' = some rest ∧ events = first ++ rest := by
  rw [simRun] at eq
  obtain ⟨⟨sim', first⟩, stepped, eq⟩ := Option.bind_eq_some_iff.mp eq
  obtain ⟨rest, ran, eq⟩ := Option.bind_eq_some_iff.mp eq
  cases eq
  exact ⟨sim', first, rest, .of_eq stepped, ran, rfl⟩

theorem directRun_cons {plans plans' : Plans} {s' : DirectState} (step : directStep env op plans s = .ok (plans', s')) :
    directRun env (op :: ops) plans s = directRun env ops plans' s' := by
  rw [directRun, step]
  rfl

theorem directRun_cons_error {plans : Plans} {e : Failure} (step : directStep env op plans s = .error e) :
    directRun env (op :: ops) plans s = .error e := by
  rw [directRun, step]
  rfl

/-- **A block that checks every access** runs to its end if the largest size can be paid, and fails otherwise. -/
theorem unplanned_run (ran : simRun ops sim = some events)
    (describes : SimMatches sim s.stack) (defined : ∀ op ∈ ops, op.Defined env) :
    if Affordable s.budget (maxRequired events) then
      ∃ s', directRun env ops .none s = .ok (.none, s') ∧ s'.msizes = s.msizes ++ sizesSeen s.memory.length events
    else ∃ e, directRun env ops .none s = .error e := by
  induction ops generalizing sim events s with
  | nil =>
    cases ran
    have pays : Affordable s.budget (maxRequired []) := affordable_zero _
    rw [if_pos pays]
    exact ⟨s, rfl, (List.append_nil _).symm⟩
  | cons op ops ih =>
    obtain ⟨sim', first, rest, h, later, rfl⟩ := simRun_cons ran
    have here := defined op List.mem_cons_self
    rw [maxRequired_append, if_congr affordable_max rfl rfl]
    by_cases pays : Affordable s.budget (maxRequired first)
    · obtain ⟨s₁, step, stepped⟩ := h.unplanned describes here pays
      have rest_run := ih later stepped.describes fun op mem => defined op (List.mem_cons_of_mem _ mem)
      rw [stepped.budget] at rest_run
      rw [if_congr (and_iff_right pays) rfl rfl, directRun_cons step, sizesSeen_append, ← stepped.size,
        ← List.append_assoc, ← stepped.msizes]
      exact rest_run
    · rw [if_neg fun both => pays both.1]
      by_cases isAccess : ∃ k, op = .memory k
      · obtain ⟨k, rfl⟩ := isAccess
        exact ⟨_, directRun_cons_error (h.own_short describes pays)⟩
      · obtain ⟨-, -, -, -, -, -, none⟩ := h.plain describes here fun k eq => isAccess ⟨k, eq⟩
        rw [none] at pays
        exact absurd (affordable_zero _) pays

/-! ## Blocks with one check -/

def constPlans (emitted : Bool) (required left : Nat) : Plans :=
  { const := {
      active := left != 0
      emitted := emitted
      maxRequiredSize := required
      coveredDirectOpsRemaining := left } }

theorem prepare_constPlans (k : MemoryOp) (stack : List Word) (emitted : Bool) (required left : Nat) :
    (constPlans emitted required left).prepare k stack = constPlans emitted required left := by
  simp [Plans.prepare, constPlans]

/-- The check of a covered access: it grows the memory at once, or finds it grown. -/
theorem checkAccess_const {addr : Word} (small : addr.toNat < 2 ^ 64) (emitted : Bool)
    (required left : Nat) (s : DirectState) : checkAccess k addr (constPlans emitted required (left + 1)) s =
      if emitted = true ∨ Affordable s.budget required
        then .ok (addr.toNat, true, constPlans true required left,
          if emitted = true then s else s.grow required)
        else .error .gasLimitExceeded := by
  rw [checkAccess_of_not_linear rfl k small, tryConsumeConst, if_neg (by simp [constPlans])]
  cases emitted with
  | true => rfl
  | false =>
    show ((expandMemoryIR required false s >>= fun s => pure (true, constPlans true required left, s)) >>=
      _) = _
    rw [expandMemoryIR_eq]
    by_cases pays : Affordable s.budget required
    · rw [if_pos pays, if_pos (.inr pays)]
      rfl
    · rw [if_neg pays, if_neg (by simp [pays])]
      rfl

theorem SimStep.covered (h : SimStep (.memory k) sim sim' events) {size : Nat}
    (ahead : Ahead size t s) (describes : SimMatches sim s.stack) (pays : Affordable s.budget (maxRequired events))
    (fits : grownSize s.memory.length (maxRequired events) ≤ size) (required left : Nat) :
    ∃ t' s', directStep env (.memory k) (constPlans true required (left + 1)) t =
        .ok (constPlans true required left, t') ∧
      directStep env (.memory k) .none s = .ok (.none, s') ∧ Ahead size t' s' ∧ Stepped events sim' s s' := by
  have runs := h.runs describes (memory_defined env k)
  obtain ⟨s', own, stepped⟩ :
      ∃ s', directStep env (.memory k) .none s = .ok (.none, s') ∧ Stepped events sim' s s' :=
    h.own describes pays
  obtain ⟨rfl, small⟩ := h.access describes
  rw [maxRequired_access] at pays fits
  have narrow : (t.stack.headD 0).toNat < 2 ^ 64 := by
    rw [ahead.stack]
    exact Nat.lt_of_le_of_lt (Nat.le_add_right _ _) small
  have check : checkAccess k (t.stack.headD 0)
      ((constPlans true required (left + 1)).prepare k t.stack) t =
        .ok (s.addr, true, constPlans true required left, t) := by
    rw [prepare_constPlans, checkAccess_const narrow, if_pos (.inl rfl), if_pos rfl, ahead.stack]
    rfl
  have value : storedValue (constPlans true required (left + 1)) true s.addr t.stack = s.stack.getD 1 0 := by
    rw [← ahead.stack]
    rfl
  obtain ⟨t', covered, after⟩ := ahead.covered runs check value pays fits own
  exact ⟨t', s', covered, own, after, stepped⟩

/-- Wherever the block looks at the size of the memory, no later access needs a larger one. -/
def Settled (size : Nat) : List MemoryEvent → Prop
  | [] => True
  | .msize :: events => maxRequired events ≤ size ∧ Settled size events
  | .access required :: events => Settled (grownSize size required) events

theorem Settled.rest {size : Nat} {first rest : List MemoryEvent} (h : Settled size (first ++ rest)) :
    Settled (grownSize size (maxRequired first)) rest := by
  induction first generalizing size with
  | nil =>
    rw [maxRequired, List.foldr_nil, grownSize_zero]
    exact h
  | cons e first ih =>
    rw [maxRequired_cons, ← grownSize_grownSize]
    cases e with
    | msize =>
      rw [MemoryEvent.required, grownSize_zero]
      exact ih h.2
    | access required => exact ih h

theorem simEvents_plain (noted : op.simEvents sim = some events) (other : ∀ k, op ≠ .memory k) :
    events = if op = .msize then [.msize] else [] := by
  cases op with
  | memory k => exact absurd rfl (other k)
  | calldataload => cases noted
  | _ =>
    cases noted
    rfl

theorem SimStep.accesses_plain (h : SimStep op sim sim' events) (other : ∀ k, op ≠ .memory k)
    (rest : List MemoryEvent) : accesses (events ++ rest) = accesses rest := by
  rw [simEvents_plain h.events other]
  split <;> rfl

theorem accesses_access (required : Nat) (rest : List MemoryEvent) :
    accesses ([.access required] ++ rest) = accesses rest + 1 := List.countP_cons_of_pos rfl

/-- **The rest of a block after the check**, next to a block that checks every access. -/
theorem covered_run (ran : simRun ops sim = some events) {size : Nat}
    (ahead : Ahead size t s) (describes : SimMatches sim s.stack) (defined : ∀ op ∈ ops, op.Defined env)
    (pays : Affordable s.budget (maxRequired events)) (reach : grownSize s.memory.length (maxRequired events) = size)
    (settled : Settled s.memory.length events) (required : Nat) :
    ∃ t' s', directRun env ops (constPlans true required (accesses events)) t = .ok (constPlans true required 0, t') ∧
      directRun env ops .none s = .ok (.none, s') ∧ Ahead size t' s' ∧ s'.memory.length = size := by
  induction ops generalizing sim events t s with
  | nil =>
    cases ran
    exact ⟨t, s, rfl, rfl, ahead, (grownSize_zero _).symm.trans reach⟩
  | cons op ops ih =>
    obtain ⟨sim', first, rest, h, later, rfl⟩ := simRun_cons ran
    rw [maxRequired_append] at pays reach
    obtain ⟨now, afterwards⟩ := affordable_max.mp pays
    rw [← grownSize_grownSize] at reach
    have here := defined op List.mem_cons_self
    have step : ∃ t₁ s₁, directStep env op (constPlans true required (accesses (first ++ rest))) t =
        .ok (constPlans true required (accesses rest), t₁) ∧
        directStep env op .none s = .ok (.none, s₁) ∧ Ahead size t₁ s₁ ∧ Stepped first sim' s s₁ := by
      by_cases isAccess : ∃ k, op = .memory k
      · obtain ⟨k, rfl⟩ := isAccess
        rw [(h.access describes).1, accesses_access, ← (h.access describes).1]
        exact h.covered ahead describes now (reach ▸ le_grownSize _ _) required (accesses rest)
      · have other (k : MemoryOp) (eq : op = .memory k) : False := isAccess ⟨k, eq⟩
        rw [h.accesses_plain other]
        have seen : op = .msize → s.memory.length = size := by
          rintro rfl
          rw [simEvents_plain h.events other, if_pos rfl] at settled reach
          have none : grownSize s.memory.length (maxRequired [.msize]) = s.memory.length :=
            grownSize_zero _
          have enough : maxRequired rest ≤ s.memory.length := settled.1
          rw [none, grownSize, if_pos enough] at reach
          exact reach
        obtain ⟨s₁, own, stepped, -⟩ := h.plain describes here other
        obtain ⟨t₁, left, ahead₁⟩ := ahead.step (h.runs describes here) other seen _ (own .none)
        exact ⟨t₁, s₁, left, own .none, ahead₁, stepped⟩
    obtain ⟨t₁, s₁, left, right, ahead₁, stepped⟩ := step
    obtain ⟨t', s', left', right', ahead', reached⟩ := ih later ahead₁ stepped.describes
      (fun op mem => defined op (List.mem_cons_of_mem _ mem)) (stepped.budget ▸ afterwards)
      (stepped.size ▸ reach) (stepped.size ▸ settled.rest)
    exact ⟨t', s', (directRun_cons left).trans left', (directRun_cons right).trans right', ahead', reached⟩

theorem directStep_first
    (small : (s.stack.headD 0).toNat < 2 ^ 64) {required : Nat} (pays : Affordable s.budget required) (left : Nat) :
    directStep env (.memory k) (constPlans false required (left + 1)) s =
      directStep env (.memory k) (constPlans true required (left + 1)) (s.grow required) := by
  have first := checkAccess_const (k := k) small false required left s
  have again := checkAccess_const (k := k) (s.grow_stack required ▸ small) true required left (s.grow required)
  rw [if_pos (.inr pays), if_neg Bool.noConfusion] at first
  rw [if_pos (.inl rfl), if_pos rfl, DirectState.grow_stack] at again
  have same : handleAccess k (constPlans false required (left + 1)) s =
      handleAccess k (constPlans true required (left + 1)) (s.grow required) := by
    simp only [handleAccess, prepare_constPlans, DirectState.grow_stack]
    rw [first, again]
    rfl
  by_cases runs : (DirectOp.memory k).Runs env s.stack
  · rw [directStep_memory runs, directStep_memory (s.grow_stack required ▸ runs), same]
  · simp only [directStep, DirectState.grow_stack]
    rw [DirectOp.Runs, not_and_or, not_not, Nat.not_le] at runs
    rcases runs with undefined | short
    · rw [if_pos undefined, if_pos undefined]
    · rw [if_pos short, if_pos short]

theorem directRun_first
    (small : (s.stack.headD 0).toNat < 2 ^ 64) {required : Nat} (pays : Affordable s.budget required)
    (left : Nat) (ops : List DirectOp) : directRun env (.memory k :: ops) (constPlans false required (left + 1)) s =
      directRun env (.memory k :: ops) (constPlans true required (left + 1)) (s.grow required) := by
  rw [directRun, directRun, directStep_first small pays]

theorem starts_access (env : BlockEnv) (ran : simRun (.memory k :: ops) sim = some events)
    (describes : SimMatches sim s.stack) : ∃ left, accesses events = left + 1 ∧ (s.stack.headD 0).toNat < 2 ^ 64 ∧
      (DirectOp.memory k).Runs env s.stack := by
  obtain ⟨sim', first, rest, h, later, rfl⟩ := simRun_cons ran
  have runs := h.runs describes (memory_defined env k)
  obtain ⟨rfl, small⟩ := h.access describes
  exact ⟨_, accesses_access _ rest, Nat.lt_of_le_of_lt (Nat.le_add_right _ _) small, runs⟩

theorem directRun_stops {plans : Plans} {e : Failure} (runs : (DirectOp.memory k).Runs env s.stack)
    (stops : handleAccess k plans s = .error e) (ops : List DirectOp) :
    directRun env (.memory k :: ops) plans s = .error e := by
  refine directRun_cons_error ?_
  rw [directStep_memory runs, stops]
  rfl

/-- As `Settled`, from the first access on. -/
def SettledAfter (size : Nat) : List MemoryEvent → Prop
  | .msize :: events => SettledAfter size events
  | events => Settled size events

def EndsAlike (t s : DirectState) : Prop :=
  t.stack = s.stack ∧ t.memory = s.memory ∧ t.gas = s.gas ∧ t.msizes = s.msizes

section

variable (ran : simRun (.memory k :: ops) sim = some events)

include ran

/-- **A block with one check** that begins with an access, next to a block that checks every access. -/
theorem shared_run (describes : SimMatches sim s.stack) (defined : ∀ op ∈ DirectOp.memory k :: ops, op.Defined env)
    (pays : Affordable s.budget (maxRequired events))
    (base : s.memoryBaseVar = .buffer ∨ s.memory.length < maxRequired events)
    (settled : Settled s.memory.length events) :
    ∃ plans t' s', directRun env (.memory k :: ops) (constPlans false (maxRequired events) (accesses events)) s =
        .ok (plans, t') ∧ directRun env (.memory k :: ops) .none s = .ok (.none, s') ∧ EndsAlike t' s' := by
  obtain ⟨left, count, narrow, -⟩ := starts_access env ran describes
  obtain ⟨t', s', run, own, ahead, reached⟩ := covered_run ran (.grow pays base) describes defined pays rfl settled
    (maxRequired events)
  rw [count] at run ⊢
  obtain ⟨memory, gas⟩ := ahead.eq reached
  exact ⟨_, t', s', (directRun_first narrow pays _ _).trans run, own, ahead.stack, memory, gas, ahead.msizes⟩

/-! ## Blocks with one check that fails -/

omit ran in
theorem defined_of_run {plans : Plans}
    {r : Plans × DirectState} (runs : directRun env ops plans s = .ok r) : ∀ op ∈ ops, op.Defined env := by
  induction ops generalizing plans s with
  | nil => exact fun _ mem => nomatch mem
  | cons op ops ih =>
    by_cases here : op.Runs env s.stack
    · cases step : directStep env op plans s with
      | error e =>
        rw [directRun_cons_error step] at runs
        cases runs
      | ok next =>
        rw [directRun_cons step] at runs
        exact List.forall_mem_cons.mpr ⟨here.1, ih runs⟩
    · obtain ⟨e, error⟩ := directStep_not_runs plans here
      rw [directRun_cons_error error] at runs
      cases runs

omit ran in
/-- Opcodes before the first access do the same under any plans, and leave the memory as it is. -/
theorem first_access (ran : simRun ops sim = some events) (describes : SimMatches sim s.stack)
    (some : accesses events ≠ 0) (defined : ∀ op ∈ ops, op.Defined env) :
    ∃ k post sim₁ later s₁, simRun (.memory k :: post) sim₁ = .some later ∧ SimMatches sim₁ s₁.stack ∧
      (∀ op ∈ DirectOp.memory k :: post, op.Defined env) ∧
      (∀ plans, directRun env ops plans s = directRun env (.memory k :: post) plans s₁) ∧
      (s₁.budget = s.budget ∧ s₁.memory = s.memory ∧ s₁.memoryBaseVar = s.memoryBaseVar) ∧
      accesses later = accesses events ∧ maxRequired later = maxRequired events ∧
      ∀ size, SettledAfter size events ↔ Settled size later := by
  induction ops generalizing sim events s with
  | nil =>
    cases ran
    exact absurd rfl some
  | cons op ops ih =>
    obtain ⟨sim', first, rest, h, later, rfl⟩ := simRun_cons ran
    by_cases isAccess : ∃ k, op = .memory k
    · obtain ⟨k, rfl⟩ := isAccess
      refine ⟨k, ops, sim, _, s, ran, describes, defined, fun _ => rfl, ⟨rfl, rfl, rfl⟩, rfl, rfl, fun size => ?_⟩
      rw [(h.access describes).1]
      rfl
    · have other (k : MemoryOp) (eq : op = .memory k) : False := isAccess ⟨k, eq⟩
      obtain ⟨s₁, step, stepped, memory, -, var, none⟩ := h.plain describes (defined op List.mem_cons_self) other
      rw [h.accesses_plain other] at some
      obtain ⟨k, post, sim₁, events, s₂, ran₂, describes₂, defined₂, runs, ⟨budget₂, memory₂, var₂⟩, count, most,
        settled⟩ := ih later stepped.describes some fun op mem => defined op (List.mem_cons_of_mem _ mem)
      refine ⟨k, post, sim₁, events, s₂, ran₂, describes₂, defined₂,
        fun plans => (directRun_cons (step plans)).trans (runs plans),
        ⟨budget₂.trans stepped.budget, memory₂.trans memory, var₂.trans var⟩, ?_, ?_, fun size => ?_⟩
      · rw [h.accesses_plain other, count]
      · rw [maxRequired_append, none, Nat.zero_max, most]
      · rw [← settled, simEvents_plain h.events other]
        split <;> rfl

theorem shared_short (describes : SimMatches sim s.stack) {required : Nat} (short : ¬ Affordable s.budget required) :
    ∃ e, directRun env (.memory k :: ops) (constPlans false required (accesses events)) s = .error e := by
  obtain ⟨left, count, narrow, runs⟩ := starts_access env ran describes
  rw [count]
  refine ⟨.gasLimitExceeded, directRun_stops runs (handleAccess_error ?_) ops⟩
  rw [prepare_constPlans, checkAccess_const narrow, if_neg (by simp [short])]

theorem shared_null (describes : SimMatches sim s.stack) {required : Nat} (pays : Affordable s.budget required)
    (enough : required ≤ s.memory.length) (null : s.memoryBaseVar = .null) :
    ∃ e, directRun env (.memory k :: ops) (constPlans false required (accesses events)) s = .error e := by
  obtain ⟨left, count, narrow, runs⟩ := starts_access env ran describes
  have same : s.grow required = s := if_pos enough
  have check : checkAccess k (s.stack.headD 0) ((constPlans false required (left + 1)).prepare k s.stack)
      s = .ok ((s.stack.headD 0).toNat, true, constPlans true required left, s) := by
    rw [prepare_constPlans, checkAccess_const narrow, if_pos (.inr pays), if_neg Bool.noConfusion, same]
  rw [count]
  exact ⟨_, directRun_stops runs (handleAccess_null check null) ops⟩

/-! ## The sizes that a block sees -/

omit ran in
theorem SimStep.inside (h : SimStep (.memory k) sim sim' events)
    (describes : SimMatches sim t.stack) (base : t.memoryBaseVar = .buffer)
    (inside : maxRequired events ≤ t.memory.length) (required left : Nat) :
    ∃ t', directStep env (.memory k) (constPlans true required (left + 1)) t =
        .ok (constPlans true required left, t') ∧ SimMatches sim' t'.stack ∧
      t'.memory.length = t.memory.length ∧ t'.msizes = t.msizes ∧ t'.memoryBaseVar = .buffer := by
  obtain ⟨rfl, small⟩ := h.access describes
  rw [maxRequired_access] at inside
  have narrow : (t.stack.headD 0).toNat < 2 ^ 64 := Nat.lt_of_le_of_lt (Nat.le_add_right _ _) small
  have check : checkAccess k (t.stack.headD 0)
      ((constPlans true required (left + 1)).prepare k t.stack) t =
        .ok (t.addr, true, constPlans true required left, t) := by
    rw [prepare_constPlans, checkAccess_const narrow, if_pos (.inl rfl), if_pos rfl]
    rfl
  obtain ⟨t', handled, accessed, kept⟩ := handleAccess_ok check base inside
  refine ⟨_, directStep_memory_ok (h.runs describes (memory_defined env k)) handled, ?_, ?_, ?_, kept⟩
  · rw [h.stack]
    show SimMatches _ ((DirectOp.memory k).stackOp.run _ t'.stack)
    rw [accessed.stack]
    exact describes.run h.deep (loaded_describes k sim _ _)
  · show t'.memory.length = _
    exact Ahead.length_accessed accessed inside
  · exact accessed.msizes

omit ran in
/-- **The rest of a block after the check** sees the size that the check has left. -/
theorem covered_sizes (ran : simRun ops sim = some events)
    (describes : SimMatches sim t.stack) (defined : ∀ op ∈ ops, op.Defined env)
    (base : t.memoryBaseVar = .buffer) (inside : maxRequired events ≤ t.memory.length) (required : Nat) :
    ∃ plans t', directRun env ops (constPlans true required (accesses events)) t = .ok (plans, t') ∧
      t'.msizes = t.msizes ++ List.replicate (events.count .msize) t.memory.length := by
  induction ops generalizing sim events t with
  | nil =>
    cases ran
    exact ⟨_, t, rfl, (List.append_nil _).symm⟩
  | cons op ops ih =>
    obtain ⟨sim', first, rest, h, later, rfl⟩ := simRun_cons ran
    rw [maxRequired_append] at inside
    have others : ∀ op ∈ ops, op.Defined env := fun op mem => defined op (List.mem_cons_of_mem _ mem)
    have inside_rest := Nat.le_trans (Nat.le_max_right _ _) inside
    by_cases isAccess : ∃ k, op = .memory k
    · obtain ⟨k, rfl⟩ := isAccess
      have count : accesses (first ++ rest) = accesses rest + 1 := by
        rw [(h.access describes).1, accesses_access]
      have sizes : (first ++ rest).count .msize = rest.count .msize := by
        rw [(h.access describes).1]
        rfl
      obtain ⟨t₁, step, describes₁, size, msizes, base₁⟩ := h.inside describes base
        (Nat.le_trans (Nat.le_max_left _ _) inside) required (accesses rest)
      obtain ⟨plans, t', runs, seen⟩ := ih later describes₁ others base₁ (size ▸ inside_rest)
      refine ⟨plans, t', ?_, ?_⟩
      · rw [count]
        exact (directRun_cons step).trans runs
      · rw [seen, msizes, size, sizes]
    · have other (k : MemoryOp) (eq : op = .memory k) : False := isAccess ⟨k, eq⟩
      obtain ⟨t₁, step, stepped, memory, -, var, -⟩ :=
        h.plain describes (defined op List.mem_cons_self) other
      obtain ⟨plans, t', runs, seen⟩ := ih later stepped.describes others (var.trans base)
        (memory ▸ inside_rest)
      refine ⟨plans, t', ?_, ?_⟩
      · rw [h.accesses_plain other]
        exact (directRun_cons (step _)).trans runs
      · have here : sizesSeen t.memory.length first =
            List.replicate (first.count .msize) t.memory.length := by
          rw [simEvents_plain h.events other]
          split <;> rfl
        rw [seen, stepped.msizes, memory, here, List.count_append, List.replicate_add, List.append_assoc]

/-- **A block with one check** runs to its end if the check can be paid and the base address is known. -/
theorem shared_sizes (describes : SimMatches sim s.stack) (defined : ∀ op ∈ DirectOp.memory k :: ops, op.Defined env)
    (pays : Affordable s.budget (maxRequired events))
    (base : s.memoryBaseVar = .buffer ∨ s.memory.length < maxRequired events) :
    ∃ plans t', directRun env (.memory k :: ops) (constPlans false (maxRequired events) (accesses events)) s =
        .ok (plans, t') ∧ t'.msizes = s.msizes ++
          List.replicate (events.count .msize) (grownSize s.memory.length (maxRequired events)) := by
  obtain ⟨left, count, narrow, -⟩ := starts_access env ran describes
  have ahead : Ahead (grownSize s.memory.length (maxRequired events)) (s.grow (maxRequired events)) s := .grow pays base
  obtain ⟨plans, t', runs, seen⟩ := covered_sizes ran (s.grow_stack (maxRequired events) ▸ describes) defined
    ahead.base (s.le_length_grow _) (maxRequired events)
  rw [count] at runs ⊢
  rw [DirectState.grow_msizes, DirectState.length_grow] at seen
  exact ⟨plans, t', (directRun_first narrow pays _ _).trans runs, seen⟩

end

theorem le_of_grownSize_eq {size required : Nat} (same : grownSize size required = size) : required ≤ size := by
  rw [← same]
  exact required_le_grownSize _ _

/-- The sizes that a block sees after the check are right only if no later access needs more. -/
theorem settled_of_sizes {size : Nat}
    (same : List.replicate (events.count .msize) (grownSize size (maxRequired events)) =
      sizesSeen size events) : Settled size events := by
  induction events generalizing size with
  | nil => trivial
  | cons e events ih =>
    cases e with
    | msize =>
      have less : maxRequired (.msize :: events) = maxRequired events := Nat.max_eq_right (Nat.zero_le _)
      rw [less, List.count_cons_self, List.replicate_succ, sizesSeen, List.cons.injEq] at same
      exact ⟨le_of_grownSize_eq same.1, ih same.2⟩
    | access required =>
      rw [maxRequired_cons, MemoryEvent.required, ← grownSize_grownSize] at same
      exact ih same

/-! ## When the check does not show -/

/-- What can be seen of the end of a block: the stack, the memory, the gas, and the sizes that it has pushed,
unless it has failed. -/
def outcome : Except Failure (Plans × DirectState) → Option (List Word × Bytes × Nat × List Nat)
  | .ok (_, s) => some (s.stack, s.memory, s.gas, s.msizes)
  | .error _ => none

theorem EndsAlike.outcome {t s : DirectState} (h : EndsAlike t s) (plans plans' : Plans) :
    Jit.outcome (.ok (plans, t)) = Jit.outcome (.ok (plans', s)) := by
  obtain ⟨stack, memory, gas, msizes⟩ := h
  rw [Jit.outcome, Jit.outcome, stack, memory, gas, msizes]

def precheckedBlock (code : Bytes) (entryPC : Nat) : List DirectOp :=
  blockOps code entryPC code.length entryPC

def blockEvents (code : Bytes) (entryPC : Nat) : List MemoryEvent :=
  (simRun (precheckedBlock code entryPC) []).getD []

theorem analyzeConstPrecheck_events {code : Bytes} {entryPC : Nat} {plan : ConstPrecheckPlan}
    (eligible : analyzeConstPrecheck code entryPC = some plan) :
    simRun (precheckedBlock code entryPC) [] = some (blockEvents code entryPC) ∧
      plan.maxRequiredSize = maxRequired (blockEvents code entryPC) ∧
      plan.coveredDirectOps = accesses (blockEvents code entryPC) ∧ accesses (blockEvents code entryPC) ≠ 0 := by
  rw [analyzeConstPrecheck, Option.filter_eq_some_iff] at eligible
  obtain ⟨loop, enough⟩ := eligible
  obtain ⟨events, ran, plan_eq⟩ := constPrecheckLoop_events loop
  have same : blockEvents code entryPC = events := by
    rw [blockEvents, precheckedBlock, ran]
    rfl
  rw [foldl_note, Nat.max_eq_right (Nat.zero_le _), Nat.zero_add] at plan_eq
  subst plan_eq
  rw [same]
  refine ⟨ran, rfl, rfl, fun none => ?_⟩
  rw [ConstPrecheckPlan.eligible, none] at enough
  exact absurd (of_decide_eq_true enough) (show ¬ 2 ≤ 0 by decide)

theorem outcome_undefined {plans : Plans} (undefined : ¬ ∀ op ∈ ops, op.Defined env) :
    outcome (directRun env ops plans s) = none := by
  cases run : directRun env ops plans s with
  | error e => rfl
  | ok r => exact absurd (defined_of_run run) undefined

theorem starting_iff (ran : simRun (.memory k :: ops) sim = some events) (describes : SimMatches sim s.stack)
    (defined : ∀ op ∈ DirectOp.memory k :: ops, op.Defined env) :
    outcome (directRun env (.memory k :: ops) (constPlans false (maxRequired events) (accesses events)) s) =
      outcome (directRun env (.memory k :: ops) .none s) ↔ (Affordable s.budget (maxRequired events) →
      (maxRequired events ≤ s.memory.length → s.memoryBaseVar = .buffer) ∧ Settled s.memory.length events) := by
  have alone := unplanned_run ran describes defined
  by_cases pays : Affordable s.budget (maxRequired events)
  · rw [if_pos pays] at alone
    obtain ⟨s', own, own_sizes⟩ := alone
    rw [forall_prop_of_true pays]
    constructor
    · intro same
      have base : s.memoryBaseVar = .buffer ∨ s.memory.length < maxRequired events := by
        by_contra neither
        rw [not_or, Nat.not_lt] at neither
        have null : s.memoryBaseVar = .null := by
          cases var : s.memoryBaseVar with
          | null => rfl
          | buffer => exact absurd var neither.1
        obtain ⟨e, error⟩ := shared_null ran describes pays neither.2 null
        rw [error, own] at same
        cases same
      refine ⟨fun enough => base.resolve_right (Nat.not_lt.mpr enough), settled_of_sizes ?_⟩
      obtain ⟨plans, t', shared, sizes⟩ := shared_sizes ran describes defined pays base
      rw [shared, own, outcome, outcome, Option.some.injEq, Prod.mk.injEq, Prod.mk.injEq, Prod.mk.injEq] at same
      have msizes := same.2.2.2
      rw [sizes, own_sizes] at msizes
      exact List.append_cancel_left msizes
    · rintro ⟨current, settled⟩
      have base : s.memoryBaseVar = .buffer ∨ s.memory.length < maxRequired events := by
        rcases Nat.lt_or_ge s.memory.length (maxRequired events) with less | enough
        · exact .inr less
        · exact .inl (current enough)
      obtain ⟨plans, t', s'', shared, own, alike⟩ := shared_run ran describes defined pays base settled
      rw [shared, own]
      exact alike.outcome _ _
  · rw [if_neg pays] at alone
    obtain ⟨e, own⟩ := alone
    obtain ⟨e', shared⟩ := shared_short ran describes pays
    rw [own, shared]
    exact ⟨fun _ affords => absurd affords pays, fun _ => rfl⟩

/-- **One check for all accesses of an eligible block does not show**, in any state, exactly if the base
address is up to date where the memory need not grow, and no access needs a larger memory than an earlier
`MSIZE` has seen, the first access apart; or if the block fails anyway. -/
theorem constPrecheck_invisible_iff {code : Bytes} {entryPC : Nat} {plan : ConstPrecheckPlan}
    (eligible : analyzeConstPrecheck code entryPC = some plan) (env : BlockEnv) (s : DirectState) :
    outcome (directRun env (precheckedBlock code entryPC)
        (constPlans false plan.maxRequiredSize plan.coveredDirectOps) s) =
      outcome (directRun env (precheckedBlock code entryPC) .none s) ↔
    ((∀ op ∈ precheckedBlock code entryPC, op.Defined env) → Affordable s.budget plan.maxRequiredSize →
      (plan.maxRequiredSize ≤ s.memory.length → s.memoryBaseVar = .buffer) ∧
        SettledAfter s.memory.length (blockEvents code entryPC)) := by
  obtain ⟨ran, max_eq, covered_eq, some⟩ := analyzeConstPrecheck_events eligible
  rw [max_eq, covered_eq]
  by_cases defined : ∀ op ∈ precheckedBlock code entryPC, op.Defined env
  · obtain ⟨k, post, sim, events, s₁, ran, describes, defined, runs, ⟨budget, memory, var⟩, count, most, settled⟩ :=
      first_access ran ⟨[], s.stack, rfl, .nil⟩ some defined
    rw [runs, runs, settled, ← most, ← count, ← budget, ← memory, ← var, forall_prop_of_true ‹_›]
    exact starting_iff ran describes defined
  · rw [outcome_undefined defined, outcome_undefined defined]
    exact ⟨fun _ all => absurd all defined, fun _ => rfl⟩

def DirectState.fresh (gas : Nat) : DirectState where
  stack := []
  memory := []
  gas := gas
  memoryBase := .null
  memoryBaseVar := .null
  msizes := []
  allocated h := absurd rfl h

/-- A frame in which a call into the runtime has grown the memory to three words. -/
def DirectState.grownByCall (gas : Nat) : DirectState where
  stack := []
  memory := List.replicate 96 0
  gas := gas
  memoryBase := .buffer
  memoryBaseVar := .null
  msizes := []
  allocated _ := rfl

def BlockEnv.stride (s : Word) : BlockEnv := ⟨.cancun, fun _ => s⟩

/-- `PUSH1 0, MLOAD, POP, PUSH1 64, MLOAD`. -/
def twoLoads : Bytes := [0x60, 0, 0x51, 0x50, 0x60, 64, 0x51]

/-- `PUSH1 0, MLOAD, POP, MSIZE, PUSH1 64, MLOAD`. -/
def twoLoadsAndMsize : Bytes := [0x60, 0, 0x51, 0x50, 0x59, 0x60, 64, 0x51]

/-- Two loads in a fresh frame. -/
theorem constPrecheck_invisible_twoLoads : analyzeConstPrecheck twoLoads 0 = some ⟨96, 2⟩ ∧
      outcome (directRun (.stride 0) (precheckedBlock twoLoads 0) (constPlans false 96 2) (.fresh 100)) =
        outcome (directRun (.stride 0) (precheckedBlock twoLoads 0) .none (.fresh 100)) := by
  have eligible : analyzeConstPrecheck twoLoads 0 = some ⟨96, 2⟩ := by decide +kernel
  refine ⟨eligible, (constPrecheck_invisible_iff eligible (.stride 0) (.fresh 100)).mpr ?_⟩
  intro _ _
  refine ⟨fun enough => absurd enough (by decide), ?_⟩
  have events : blockEvents twoLoads 0 = [.access 32, .access 96] := by decide +kernel
  rw [events]
  trivial

/-- `MSIZE` sees the size that only a later access needs, and two loads from memory that a call has grown go
through the null address. -/
theorem constPrecheck_visible : (analyzeConstPrecheck twoLoadsAndMsize 0 = some ⟨96, 2⟩ ∧
      (outcome (directRun (.stride 0) (precheckedBlock twoLoadsAndMsize 0) (constPlans false 96 2)
        (.fresh 100))).map (fun o => (o.1, o.2.2.2)) = some ([0, 96], [96]) ∧
      (outcome (directRun (.stride 0) (precheckedBlock twoLoadsAndMsize 0) .none
        (.fresh 100))).map (fun o => (o.1, o.2.2.2)) = some ([0, 32], [32])) ∧
    analyzeConstPrecheck twoLoads 0 = some ⟨96, 2⟩ ∧
      outcome (directRun (.stride 0) (precheckedBlock twoLoads 0) (constPlans false 96 2) (.grownByCall 100)) = none ∧
      (outcome (directRun (.stride 0) (precheckedBlock twoLoads 0) .none (.grownByCall 100))).map
        (fun o => o.1) = some [0] := by
  decide +kernel

end Dtvm.Jit
