import Dtvm.Jit.ConstPrecheck

/-!
# One check for accesses at equal distances

A block that loads a stride from the call data and then accesses the addresses 0, `s`, `2s` and so on gets one
check for all of them: at the first access it computes the last address in 64 bits, and grows the memory up to it.

The check fails exactly if one of the accesses would, and otherwise all addresses are the ones that the stack has
(`linearCheck_eq`). As in `Dtvm.Jit.ConstPrecheck`, the accesses rely on the copy of the base address, so the check
does not show only if that is up to date where the memory need not grow (`linearPrecheck_sound_iff`).
-/

namespace Dtvm.Jit

open OperandStack

/-! ## The analysis -/

/-- The opcodes that a linear block repeats, with an access that is a load or a store. -/
inductive Motif where
  | mload | mstore
deriving DecidableEq, Repr

namespace Motif

def op : Motif → MemoryOp
  | .mload => .mload
  | .mstore => .mstore

def before : Motif → List DirectOp
  | .mload => [.dup 1]
  | .mstore => [.dup 1, .dup 1]

def after : Motif → List DirectOp
  | .mload => [.pop, .dup 2, .add]
  | .mstore => [.dup 2, .add]

def ops (m : Motif) : List DirectOp := m.before ++ .memory m.op :: m.after

def opcodes : Motif → List Opcode
  | .mload => [.dup 1, .mload, .pop, .dup 2, .add]
  | .mstore => [.dup 1, .dup 1, .mstore, .dup 2, .add]

def strideStackIndex : Motif → Nat
  | .mload => 2
  | .mstore => 3

end Motif

/-- `consumeExpectedOpcode`: the program counter after it. -/
def consumeExpectedOpcode (code : Bytes) (expected : Opcode) (pc : Nat) : Option Nat :=
  if code.length ≤ pc ∨ opAt code pc ≠ expected then none else some (pc + 1)

def consumeZeroPush (code : Bytes) (pc : Nat) : Option Nat :=
  if code.length ≤ pc then none
  else match opAt code pc with
    | .push0 => some (pc + 1)
    | .push n => if parsePushConstU64 code (pc + 1) n = some 0 then some (pc + 1 + n) else none
    | _ => none

/-- `consumeLinearRecurrencePrefix`. -/
def consumeLinearRecurrence (code : Bytes) (entryPC : Nat) : Option Nat := do
  let pc := (consumeExpectedOpcode code .jumpdest entryPC).getD entryPC
  let pc ← consumeZeroPush code pc
  let pc ← consumeExpectedOpcode code .calldataload pc
  consumeZeroPush code pc

/-- The loop of the linear analyses, which counts accesses; one unit of fuel for each byte is enough. -/
def linearLoop (code : Bytes) (m : Motif) : Nat → Nat → Nat → Option Nat
  | 0, _, covered => some covered
  | fuel + 1, pc, covered =>
    if code.length ≤ pc then some covered
    else if opAt code pc = .jumpdest ∨ isBlockTerminatorOpcode (opAt code pc) = true then some covered
    else do
      let pc ← m.opcodes.foldlM (fun pc expected => consumeExpectedOpcode code expected pc) pc
      linearLoop code m fuel pc (covered + 1)

def linearAccesses (code : Bytes) (m : Motif) (entryPC : Nat) : Option Nat := do
  let pc ← consumeLinearRecurrence code entryPC
  let covered ← linearLoop code m code.length pc 0
  if covered < 2 then none else some covered

def linearPlan (m : Motif) (covered : Nat) : LinearPlan where
  active := true
  valueEqualsFirstAddr := m == .mstore
  accessWidth := 32
  coveredDirectOpsTotal := covered
  coveredDirectOpsRemaining := covered
  coveredOpcode := m.op
  strideStackIndex := m.strideStackIndex

/-- `analyzeLinearMloadDirectMemoryBlockPrecheck`. -/
def analyzeLinearMload (code : Bytes) (entryPC : Nat) : Option LinearPlan :=
  (linearAccesses code .mload entryPC).map (linearPlan .mload)

/-- `analyzeLinearMstoreDirectMemoryBlockPrecheck`. -/
def analyzeLinearMstore (code : Bytes) (entryPC : Nat) : Option LinearPlan :=
  (linearAccesses code .mstore entryPC).map (linearPlan .mstore)

/-- `analyzeLinearDirectMemoryBlockPrecheck`. -/
def analyzeLinearPrecheck (code : Bytes) (entryPC : Nat) : Option LinearPlan :=
  (analyzeLinearMload code entryPC).or (analyzeLinearMstore code entryPC)

/-! ## The block -/

variable {code : Bytes} {pc pc' fuel : Nat}

theorem consumeExpectedOpcode_eq {expected : Opcode} (eq : consumeExpectedOpcode code expected pc = some pc') :
    pc < code.length ∧ opAt code pc = expected ∧ pc' = pc + 1 := by
  rw [consumeExpectedOpcode] at eq
  split at eq
  · cases eq
  · next h =>
    rw [not_or, Nat.not_le, not_not] at h
    exact ⟨h.1, h.2, (Option.some.inj eq).symm⟩

theorem blockOps_cons {entryPC : Nat} (inside : pc < code.length)
    (enough : code.length - pc ≤ fuel) (notDest : ¬ (pc ≠ entryPC ∧ opAt code pc = .jumpdest))
    {op : DirectOp} (here : directOp code pc = some op) : ∃ fuel', code.length - (pc + (opAt code pc).len) ≤ fuel' ∧
      blockOps code entryPC fuel pc = op :: blockOps code entryPC fuel' (pc + (opAt code pc).len) := by
  cases fuel with
  | zero => omega
  | succ fuel =>
    have pos := (opAt code pc).len_pos
    refine ⟨fuel, by omega, ?_⟩
    rw [blockOps, if_neg (Nat.not_le.mpr inside), if_neg notDest, here]

def IsZeroPush : DirectOp → Prop
  | .push0 => True
  | .push _ v => v = 0
  | _ => False

theorem consumeZeroPush_eq (eq : consumeZeroPush code pc = some pc') :
    pc < code.length ∧ opAt code pc ≠ .jumpdest ∧ pc' = pc + (opAt code pc).len ∧
      ∃ zero, IsZeroPush zero ∧ directOp code pc = some zero := by
  rw [consumeZeroPush] at eq
  split at eq
  · cases eq
  · next inside =>
    refine ⟨Nat.lt_of_not_le inside, ?_⟩
    split at eq
    · next push0 =>
      cases eq
      rw [directOp, push0]
      exact ⟨by rintro ⟨⟩, rfl, .push0, trivial, rfl⟩
    · next n push =>
      split at eq
      · next parsed =>
        cases eq
        rw [directOp, push]
        refine ⟨by rintro ⟨⟩, by rw [Opcode.len]; omega, .push n 0, rfl, ?_⟩
        exact congrArg (some <| DirectOp.push n ·) (parsePushConstU64_eq parsed).symm
      · cases eq
    · cases eq

theorem blockOps_expected (entryPC : Nat) (op : DirectOp)
    {expected : Opcode} (eq : consumeExpectedOpcode code expected pc = some pc') (enough : code.length - pc ≤ fuel)
    (other : expected ≠ .jumpdest ∨ pc = entryPC) (one : expected.len = 1)
    (here : opAt code pc = expected → directOp code pc = some op) : ∃ fuel', code.length - pc' ≤ fuel' ∧
      blockOps code entryPC fuel pc = op :: blockOps code entryPC fuel' pc' := by
  obtain ⟨inside, found, rfl⟩ := consumeExpectedOpcode_eq eq
  have notDest : ¬ (pc ≠ entryPC ∧ opAt code pc = .jumpdest) := by
    rintro ⟨ne, dest⟩
    rcases other with other | same
    · exact other (found.symm.trans dest)
    · exact ne same
  have next := blockOps_cons inside enough notDest (here found)
  rwa [found, one] at next

theorem blockOps_zero (entryPC : Nat) (eq : consumeZeroPush code pc = some pc') (enough : code.length - pc ≤ fuel) :
    ∃ zero fuel', IsZeroPush zero ∧ pc < pc' ∧ code.length - pc' ≤ fuel' ∧
      blockOps code entryPC fuel pc = zero :: blockOps code entryPC fuel' pc' := by
  obtain ⟨inside, notDest, rfl, zero, isZero, here⟩ := consumeZeroPush_eq eq
  obtain ⟨fuel', enough', block⟩ := blockOps_cons inside enough (fun h => notDest h.2) here
  exact ⟨zero, fuel', isZero, Nat.lt_add_of_pos_right (Opcode.len_pos _), enough', block⟩

/-- An opcode of one byte, as the analysis and the block have it. -/
def Spells (code : Bytes) (o : Opcode) (op : DirectOp) : Prop :=
  o ≠ .jumpdest ∧ o.len = 1 ∧ ∀ pc, opAt code pc = o → directOp code pc = some op

theorem blockOps_sequence (entryPC : Nat) {expected : List Opcode} {ops : List DirectOp}
    (same : List.Forall₂ (Spells code) expected ops)
    (eq : expected.foldlM (fun pc o => consumeExpectedOpcode code o pc) pc = some pc')
    (enough : code.length - pc ≤ fuel) : ∃ fuel', code.length - pc' ≤ fuel' ∧
      blockOps code entryPC fuel pc = ops ++ blockOps code entryPC fuel' pc' := by
  induction same generalizing pc fuel with
  | nil =>
    cases eq
    exact ⟨fuel, enough, rfl⟩
  | cons head tail ih =>
    rw [List.foldlM_cons] at eq
    obtain ⟨next, first, rest⟩ := Option.bind_eq_some_iff.mp eq
    obtain ⟨fuel₁, enough₁, here⟩ :=
      blockOps_expected entryPC _ first enough (.inl head.1) head.2.1 (head.2.2 pc)
    obtain ⟨fuel', enough', later⟩ := ih rest enough₁
    exact ⟨fuel', enough', by rw [here, later, List.cons_append]⟩

theorem Motif.spells (m : Motif) (code : Bytes) : List.Forall₂ (Spells code) m.opcodes m.ops := by
  have dup (n : Nat) : Spells code (.dup n) (.dup n) :=
    ⟨by rintro ⟨⟩, rfl, fun pc here => by rw [directOp, here]⟩
  have pop : Spells code .pop .pop :=
    ⟨by rintro ⟨⟩, rfl, fun pc here => by rw [directOp, here]⟩
  have add : Spells code .add .add :=
    ⟨by rintro ⟨⟩, rfl, fun pc here => by rw [directOp, here]⟩
  have mload : Spells code .mload (.memory .mload) :=
    ⟨by rintro ⟨⟩, rfl, fun pc here => by rw [directOp, here]⟩
  have mstore : Spells code .mstore (.memory .mstore) :=
    ⟨by rintro ⟨⟩, rfl, fun pc here => by rw [directOp, here]⟩
  cases m with
  | mload => exact .cons (dup 1) (.cons mload (.cons pop (.cons (dup 2) (.cons add .nil))))
  | mstore => exact .cons (dup 1) (.cons (dup 1) (.cons mstore (.cons (dup 2) (.cons add .nil))))

theorem foldlM_consume {expected : List Opcode}
    (eq : expected.foldlM (fun pc o => consumeExpectedOpcode code o pc) pc = some pc') :
    pc' = pc + expected.length := by
  induction expected generalizing pc with
  | nil =>
    cases eq
    rfl
  | cons o expected ih =>
    rw [List.foldlM_cons] at eq
    obtain ⟨next, first, rest⟩ := Option.bind_eq_some_iff.mp eq
    obtain ⟨-, -, rfl⟩ := consumeExpectedOpcode_eq first
    rw [ih rest, List.length_cons, Nat.add_assoc, Nat.add_comm 1]

theorem blockOps_end {entryPC : Nat} (fuel : Nat) (ends : code.length ≤ pc ∨ pc ≠ entryPC ∧ opAt code pc = .jumpdest ∨
      isBlockTerminatorOpcode (opAt code pc) = true) : blockOps code entryPC fuel pc = [] := by
  cases fuel with
  | zero => rfl
  | succ fuel =>
    rw [blockOps]
    split
    · rfl
    · next inside =>
      split
      · rfl
      · next notDest =>
        rw [directOp_terminator ((ends.resolve_left inside).resolve_left notDest)]

/-- **The loop counts the motifs of the block.** -/
theorem linearLoop_block {m : Motif} (entryPC : Nat) {loopFuel covered n : Nat}
    (eq : linearLoop code m loopFuel pc covered = some n) (entry : entryPC < pc)
    (loopEnough : code.length - pc ≤ loopFuel) (enough : code.length - pc ≤ fuel) : ∃ count, n = covered + count ∧
      blockOps code entryPC fuel pc = (List.replicate count m.ops).flatten := by
  induction loopFuel generalizing pc covered fuel with
  | zero =>
    cases eq
    exact ⟨0, rfl, blockOps_end fuel (.inl (by omega))⟩
  | succ loopFuel ih =>
    rw [linearLoop] at eq
    split at eq
    · next past =>
      cases eq
      exact ⟨0, rfl, blockOps_end fuel (.inl past)⟩
    · split at eq
      · next ends =>
        cases eq
        exact ⟨0, rfl, blockOps_end fuel (.inr (ends.imp_left fun dest => ⟨Nat.ne_of_gt entry, dest⟩))⟩
      · obtain ⟨next, motif, rest⟩ := Option.bind_eq_some_iff.mp eq
        have onward : next = pc + 5 := by
          rw [foldlM_consume motif]
          cases m <;> rfl
        obtain ⟨fuel₁, enough₁, here⟩ := blockOps_sequence entryPC (m.spells code) motif enough
        obtain ⟨count, total, later⟩ := ih rest (by omega) (by omega) enough₁
        refine ⟨count + 1, by omega, ?_⟩
        rw [here, later, List.replicate_succ, List.flatten_cons]

structure IsLead (lead : List DirectOp) : Prop where
  shape : ∃ dest first second, (dest = [] ∨ dest = [.jumpdest]) ∧ IsZeroPush first ∧ IsZeroPush second ∧
    lead = dest ++ [first, .calldataload, second]

/-- **A linear block** is its prefix and its motifs. -/
theorem linearAccesses_block {m : Motif} {entryPC n : Nat} (eq : linearAccesses code m entryPC = some n) :
    2 ≤ n ∧ ∃ lead, IsLead lead ∧ precheckedBlock code entryPC = lead ++ (List.replicate n m.ops).flatten := by
  rw [linearAccesses] at eq
  obtain ⟨pc, start, eq⟩ := Option.bind_eq_some_iff.mp eq
  obtain ⟨covered, loop, eq⟩ := Option.bind_eq_some_iff.mp eq
  split at eq
  · cases eq
  · next some =>
    cases eq
    refine ⟨Nat.le_of_not_lt some, ?_⟩
    rw [consumeLinearRecurrence] at start
    obtain ⟨pc₁, first, start⟩ := Option.bind_eq_some_iff.mp start
    obtain ⟨pc₂, load, second⟩ := Option.bind_eq_some_iff.mp start
    -- the entry, with or without a `JUMPDEST`
    obtain ⟨dest, fuel₀, isDest, le, enough₀, block₀⟩ : ∃ dest fuel,
        (dest = [] ∨ dest = [DirectOp.jumpdest]) ∧
        entryPC ≤ (consumeExpectedOpcode code .jumpdest entryPC).getD entryPC ∧
        code.length - (consumeExpectedOpcode code .jumpdest entryPC).getD entryPC ≤ fuel ∧
        precheckedBlock code entryPC = dest ++
          blockOps code entryPC fuel ((consumeExpectedOpcode code .jumpdest entryPC).getD entryPC) := by
      cases found : consumeExpectedOpcode code .jumpdest entryPC with
      | none => exact ⟨[], code.length, .inl rfl, Nat.le_refl _, Nat.sub_le _ _, rfl⟩
      | some next =>
        obtain ⟨-, -, next_eq⟩ := consumeExpectedOpcode_eq found
        obtain ⟨fuel, enough, block⟩ := blockOps_expected entryPC .jumpdest found
          (Nat.sub_le code.length entryPC) (.inr rfl) rfl (fun here => by rw [directOp, here])
        exact ⟨[.jumpdest], fuel, .inr rfl, by rw [Option.getD_some]; omega, enough, block⟩
    obtain ⟨zero, fuel₁, isZero, lt₁, enough₁, block₁⟩ := blockOps_zero entryPC first enough₀
    obtain ⟨fuel₂, enough₂, block₂⟩ := blockOps_expected entryPC .calldataload load enough₁
      (.inl (by rintro ⟨⟩)) rfl fun here => by rw [directOp, here]
    obtain ⟨-, -, rfl⟩ := consumeExpectedOpcode_eq load
    obtain ⟨zero', fuel₃, isZero', lt₃, enough₃, block₃⟩ := blockOps_zero entryPC second enough₂
    obtain ⟨count, total, block₄⟩ := linearLoop_block entryPC loop (by omega)
      (Nat.sub_le _ _) enough₃
    rw [Nat.zero_add] at total
    subst total
    refine ⟨dest ++ [zero, .calldataload, zero'], ⟨dest, zero, zero', isDest, isZero, isZero', rfl⟩, ?_⟩
    rw [block₀, block₁, block₂, block₃, block₄, List.append_assoc]
    rfl

/-! ## The check -/

def linearRequired (n stride : Nat) : Nat := stride * (n - 1) + 32

/-- **The 64-bit arithmetic of the check is right.** -/
theorem linearCheck_eq {plan : LinearPlan} (width : plan.accessWidth = 32)
    (some : 2 ≤ plan.coveredDirectOpsTotal) (stride : Word) (s : DirectState) : linearCheck plan 0 stride s =
      if Affordable s.budget (linearRequired plan.coveredDirectOpsTotal stride.toNat)
        then .ok (s.grow (linearRequired plan.coveredDirectOpsTotal stride.toNat))
        else .error .gasLimitExceeded := by
  have limit : maxRequiredMemorySize < 2 ^ 64 - 32 := by decide
  obtain ⟨last, total⟩ : ∃ last, plan.coveredDirectOpsTotal = last + 2 :=
    ⟨_, (Nat.sub_add_cancel some).symm⟩
  have pos : 0 < last + 1 := Nat.succ_pos _
  have nonzero : last + 1 ≠ 0 := Nat.succ_ne_zero _
  have pred : last + 2 - 1 = last + 1 := rfl
  rw [linearCheck, directOffset, linearRequired, total, width, pred]
  by_cases narrow : stride.toNat < 2 ^ 64
  · rw [if_pos narrow]
    show expandMemoryIR _ _ s = _
    rw [if_pos nonzero, Nat.zero_add, Nat.mod_mod, decide_eq_true nonzero, Bool.true_and]
    by_cases fits : stride.toNat * (last + 1) < 2 ^ 64
    · have quotient : ¬ stride.toNat > (2 ^ 64 - 1) / (last + 1) := by
        rw [Nat.not_lt, Nat.le_div_iff_mul_le pos]
        omega
      rw [Nat.mod_eq_of_lt fits, decide_eq_false quotient, decide_eq_false (Nat.not_lt_zero _),
        Bool.false_or, Bool.false_or]
      by_cases within : stride.toNat * (last + 1) + 32 < 2 ^ 64
      · rw [Nat.mod_eq_of_lt within, decide_eq_false (by omega), expandMemoryIR_eq]
      · have wraps : (stride.toNat * (last + 1) + 32) % 2 ^ 64 < stride.toNat * (last + 1) := by
          rw [Nat.mod_eq_sub_mod (Nat.le_of_not_lt within), Nat.mod_eq_of_lt (by omega)]
          omega
        rw [decide_eq_true wraps, expandMemoryIR_overflow,
          if_neg fun pays : Affordable _ _ => absurd pays.1 (by omega)]
    · have quotient : stride.toNat > (2 ^ 64 - 1) / (last + 1) := by
        rw [gt_iff_lt, Nat.div_lt_iff_lt_mul pos]
        omega
      rw [decide_eq_true quotient, Bool.true_or, Bool.true_or, expandMemoryIR_overflow,
        if_neg fun pays : Affordable _ _ => absurd pays.1 (by omega)]
  · have large : 2 ^ 64 ≤ stride.toNat * (last + 1) :=
      Nat.le_trans (Nat.le_of_not_lt narrow) (Nat.le_mul_of_pos_right _ pos)
    rw [if_neg narrow, if_neg fun pays : Affordable _ _ => absurd pays.1 (by omega)]
    rfl

def linearPlans (m : Motif) (n : Nat) (emitted : Bool) (left : Nat) : Plans :=
  { linear := { linearPlan m n with
      active := left != 0
      emitted := emitted
      coveredDirectOpsRemaining := left } }

theorem Motif.op_ne (m : Motif) : m.op ≠ .mstore8 := by
  cases m <;> exact fun h => nomatch h

theorem checkAccess_linear (m : Motif) (n left : Nat) (addr : Word) (stack : List Word) (t : DirectState) :
    checkAccess m.op addr ((linearPlans m n true (left + 1)).prepare m.op stack) t =
      .ok (addr.low64, true, linearPlans m n true left, t) := by
  have same : (linearPlans m n true (left + 1)).prepare m.op stack = linearPlans m n true (left + 1) := by
    rw [Plans.prepare, if_neg (by rintro ⟨-, ⟨⟩, -⟩)]
  rw [same]
  simp only [checkAccess]
  rw [if_pos ⟨m.op_ne, rfl, Nat.succ_ne_zero _⟩]
  rfl

theorem checkAccess_linear_first {m : Motif} {n : Nat} (some : 2 ≤ n) (left : Nat) {addr : Word}
    (zero : addr = 0) {stack : List Word} {stride : Word} (found : stack[m.strideStackIndex]? = .some stride)
    (s : DirectState) : checkAccess m.op addr ((linearPlans m n false (left + 1)).prepare m.op stack) s =
      if Affordable s.budget (linearRequired n stride.toNat)
        then .ok (0, true, linearPlans m n true left, s.grow (linearRequired n stride.toNat))
        else .error .gasLimitExceeded := by
  have index : (linearPlans m n false (left + 1)).linear.strideStackIndex = m.strideStackIndex := rfl
  have prepared : (linearPlans m n false (left + 1)).prepare m.op stack =
      { linear := { (linearPlans m n false (left + 1)).linear with pendingStride := .some stride } } := by
    rw [Plans.prepare, if_pos ⟨rfl, rfl, rfl⟩, index, found]
    rfl
  have check : linearCheck
      { (linearPlans m n false (left + 1)).linear with pendingStride := .some stride } 0 stride s =
        if Affordable s.budget (linearRequired n stride.toNat)
          then .ok (s.grow (linearRequired n stride.toNat))
          else .error .gasLimitExceeded := linearCheck_eq rfl some stride s
  have low : addr.low64 = 0 := by
    rw [zero]
    rfl
  rw [prepared]
  simp only [checkAccess]
  rw [if_pos ⟨m.op_ne, rfl, Nat.succ_ne_zero _⟩, low]
  show ((linearCheck { (linearPlans m n false (left + 1)).linear with pendingStride := .some stride } 0 stride s
    >>= _) >>= _) = _
  rw [check]
  by_cases pays : Affordable s.budget (linearRequired n stride.toNat)
  · rw [if_pos pays, if_pos pays]
    rfl
  · rw [if_neg pays, if_neg pays]
    rfl

/-! ## One motif -/

theorem directRun_stackOnly {env : BlockEnv} {op : DirectOp} {ops : List DirectOp} {plans : Plans}
    {s : DirectState} {before stack : List Word} (only : op.isStackOnly = true) (here : s.stack = before)
    (runs : op.Runs env before) (after : op.stackOp.run (op.given env before) before = stack) :
    directRun env (op :: ops) plans s = directRun env ops plans { s with stack := stack } := by
  subst here
  rw [directRun_cons (directStep_stackOnly only runs), after]

def Motif.operands (a : Word) : Motif → List Word
  | .mload => [a]
  | .mstore => [a, a]

section

variable (m : Motif) (env : BlockEnv) (plans : Plans) (ops : List DirectOp)
variable {s : DirectState} {a w : Word} {st : List Word}

def Motif.ready (a w : Word) (st : List Word) (s : DirectState) : DirectState :=
  { s with stack := m.operands a ++ a :: w :: st }

theorem Motif.ready_head : (m.ready a w st s).stack.headD 0 = a := by
  cases m <;> rfl

theorem Motif.ready_addr : (m.ready a w st s).addr = a.toNat := congrArg BitVec.toNat m.ready_head

theorem Motif.run_ops (stack : s.stack = a :: w :: st) :
    directRun env (m.ops ++ ops) plans s = directRun env (.memory m.op :: (m.after ++ ops)) plans (m.ready a w st s) := by
  have dup (s : DirectState) (st : List Word) (ops : List DirectOp) (stack : s.stack = a :: st) :
      directRun env (.dup 1 :: ops) plans s = directRun env ops plans { s with stack := a :: a :: st } := by
    exact directRun_stackOnly rfl stack ⟨fun h => (nomatch h.1), Nat.le_add_left _ _⟩ rfl
  cases m with
  | mload => exact dup s _ _ stack
  | mstore => exact (dup s _ _ stack).trans (dup _ _ _ rfl)

theorem Motif.run_after {memory : Bytes} {offset : Nat} (stack : s.stack = m.op.loaded memory offset ++ a :: w :: st) :
    directRun env (m.after ++ ops) plans s =
      directRun env ops plans { s with stack := (w + a) :: w :: st } := by
  have onward (s : DirectState) (stack : s.stack = a :: w :: st) :
      directRun env (.dup 2 :: .add :: ops) plans s =
        directRun env ops plans { s with stack := (w + a) :: w :: st } := by
    have dup : directRun env (.dup 2 :: .add :: ops) plans s =
        directRun env (.add :: ops) plans { s with stack := w :: a :: w :: st } := by
      exact directRun_stackOnly rfl stack ⟨fun h => (nomatch h.1), Nat.le_add_left _ _⟩ rfl
    rw [dup]
    exact directRun_stackOnly rfl rfl ⟨fun h => (nomatch h.1), Nat.le_add_left _ _⟩ rfl
  cases m with
  | mload =>
    have pop : directRun env (.pop :: .dup 2 :: .add :: ops) plans s =
        directRun env (.dup 2 :: .add :: ops) plans { s with stack := a :: w :: st } := by
      exact directRun_stackOnly rfl stack ⟨fun h => (nomatch h.1), Nat.le_add_left _ _⟩ rfl
    exact pop.trans (onward _ rfl)
  | mstore => exact onward s stack

theorem Motif.runs_access : (DirectOp.memory m.op).Runs env (m.ready a w st s).stack := by
  cases m <;> exact ⟨fun h => (nomatch h.1), Nat.le_add_left _ _⟩

theorem Motif.run_access (loaded : List Word) :
    (DirectOp.memory m.op).stackOp.run loaded (m.ready a w st s).stack = loaded ++ a :: w :: st := by
  cases m <;> rfl

theorem Motif.width_op : m.op.width = 32 := by
  cases m <;> rfl

theorem Motif.run_error {e : Failure} (stack : s.stack = a :: w :: st)
    (stops : handleAccess m.op plans (m.ready a w st s) = .error e) : directRun env (m.ops ++ ops) plans s = .error e :=
  (m.run_ops env plans ops stack).trans (directRun_stops (m.runs_access env) stops _)

end

/-- What a motif does to a state with an address and the stride on its stack. -/
structure Moved (a w : Word) (st : List Word) (s s' : DirectState) : Prop where
  stack : s'.stack = (w + a) :: w :: st
  budget : s'.budget = s.budget
  size : s'.memory.length = grownSize s.memory.length (a.toNat + 32)

variable {s : DirectState} {a w : Word} {st : List Word} {budget : Nat}

theorem Motif.step_own (m : Motif) (env : BlockEnv) (st : List Word) (pays : Affordable s.budget (a.toNat + 32)) :
    ∃ s₁ memory, directStep env (.memory m.op) .none (m.ready a w st s) = .ok (.none, s₁) ∧
      s₁.stack = m.op.loaded memory a.toNat ++ a :: w :: st ∧
      Moved a w st s { s₁ with stack := (w + a) :: w :: st } := by
  obtain ⟨s₁, step, stack₁, budget, size, -⟩ := Ahead.step_own (s := m.ready a w st s) (k := m.op) (m.runs_access env)
    (by rw [m.ready_addr, m.width_op]; exact pays)
  rw [m.run_access, m.ready_addr] at stack₁
  rw [m.ready_addr, m.width_op] at size
  exact ⟨s₁, _, step, stack₁, rfl, budget, size⟩

theorem Motif.own (m : Motif) (env : BlockEnv) (ops : List DirectOp) (stack : s.stack = a :: w :: st)
    (pays : Affordable s.budget (a.toNat + 32)) :
    ∃ s', directRun env (m.ops ++ ops) .none s = directRun env ops .none s' ∧ Moved a w st s s' := by
  obtain ⟨s₁, _, step, stack₁, moved⟩ := m.step_own env st pays
  exact ⟨_, (m.run_ops env .none ops stack).trans ((directRun_cons step).trans (m.run_after env .none ops stack₁)), moved⟩

theorem Motif.own_short (m : Motif) (env : BlockEnv) (ops : List DirectOp) (stack : s.stack = a :: w :: st)
    (short : ¬ Affordable s.budget (a.toNat + 32)) : ∃ e, directRun env (m.ops ++ ops) .none s = .error e := by
  refine ⟨_, m.run_error env .none ops stack (handleAccess_unplanned_short ?_)⟩
  rw [m.ready_addr, m.width_op]
  exact short

theorem affordable_small {a : Nat} (pays : Affordable budget (a + 32)) : a < 2 ^ 64 := by
  have limit : maxRequiredMemorySize < 2 ^ 64 := by decide
  have small := pays.1
  omega

theorem Motif.covered (m : Motif) (env : BlockEnv) (ops : List DirectOp) {size : Nat} {t : DirectState}
    (ahead : Ahead size t s) (stack : s.stack = a :: w :: st) (pays : Affordable s.budget (a.toNat + 32))
    (fits : grownSize s.memory.length (a.toNat + 32) ≤ size) (total left : Nat) :
    ∃ t' s', directRun env (m.ops ++ ops) (linearPlans m total true (left + 1)) t =
        directRun env ops (linearPlans m total true left) t' ∧
      directRun env (m.ops ++ ops) .none s = directRun env ops .none s' ∧ Ahead size t' s' ∧ Moved a w st s s' := by
  have ready : Ahead size (m.ready a w st t) (m.ready a w st s) := ahead.withStack _
  have check := checkAccess_linear m total left a (m.ready a w st t).stack (m.ready a w st t)
  rw [low64_of_lt (affordable_small pays)] at check
  have value : storedValue (linearPlans m total true (left + 1)) true a.toNat (m.ready a w st t).stack =
      (m.ready a w st s).stack.getD 1 0 := by
    cases m with
    | mload => rfl
    | mstore => exact (BitVec.ofNat_toNat 256 a).trans (BitVec.setWidth_eq a)
  obtain ⟨s₁, _, own, stack₁, moved⟩ := m.step_own env st pays
  obtain ⟨t₁, left₁, after⟩ := ready.covered (m.runs_access env) (by rw [m.ready_addr, m.ready_head]; exact check)
    (by rw [m.ready_addr]; exact value) (by rw [m.ready_addr, m.width_op]; exact pays)
    (by rw [m.ready_addr, m.width_op]; exact fits) own
  refine ⟨_, _, ?_, ?_, after.withStack _, moved⟩
  · rw [m.run_ops env _ ops (ahead.stack.trans stack), directRun_cons left₁,
      m.run_after env _ ops (after.stack.trans stack₁)]
  · rw [m.run_ops env _ ops stack, directRun_cons own, m.run_after env _ ops stack₁]

/-! ## All motifs -/

section

variable (start : a.toNat = 0 ∨ w.toNat ≤ a.toNat) (pays : Affordable budget (a.toNat + 32))

include start pays

/-- The next address is right if the access at this one can be paid: the stride is not larger than an address
that is not the first. -/
theorem toNat_next : (w + a).toNat = w.toNat + a.toNat := by
  have limit : 2 * maxRequiredMemorySize < 2 ^ 256 := by decide
  have small := pays.1
  have bound := w.isLt
  rw [BitVec.toNat_add, Nat.mod_eq_of_lt]
  omega

def requiredFrom (a w : Word) (more : Nat) : Nat := a.toNat + w.toNat * more + 32

omit pays in
omit start in
theorem le_requiredFrom (a w : Word) (more : Nat) : a.toNat + 32 ≤ requiredFrom a w more := by
  rw [requiredFrom]
  omega

theorem requiredFrom_succ (more : Nat) : requiredFrom (w + a) w more = requiredFrom a w (more + 1) := by
  rw [requiredFrom, requiredFrom, toNat_next start pays, Nat.mul_succ]
  omega

theorem start_next : (w + a).toNat = 0 ∨ w.toNat ≤ (w + a).toNat := by
  rw [toNat_next start pays]
  exact .inr (Nat.le_add_right _ _)

end

theorem requiredFrom_zero (w : Word) (more : Nat) : requiredFrom 0 w more = linearRequired (more + 1) w.toNat := by
  rw [requiredFrom, linearRequired, Nat.add_sub_cancel]
  show 0 + w.toNat * more + 32 = _
  rw [Nat.zero_add]

/-- Motifs that check every access run to their end if the last of them can be paid, and fail otherwise. -/
theorem motifs_own (m : Motif) (env : BlockEnv) (more : Nat)
    (stack : s.stack = a :: w :: st) (start : a.toNat = 0 ∨ w.toNat ≤ a.toNat) :
    (Affordable s.budget (requiredFrom a w more) →
      ∃ s', directRun env (List.replicate (more + 1) m.ops).flatten .none s = .ok (.none, s')) ∧
    (¬ Affordable s.budget (requiredFrom a w more) →
      ∃ e, directRun env (List.replicate (more + 1) m.ops).flatten .none s = .error e) := by
  induction more generalizing s a with
  | zero =>
    refine ⟨fun pays => ?_, m.own_short env [] stack⟩
    obtain ⟨s', runs, -⟩ := m.own env [] stack pays
    exact ⟨s', runs⟩
  | succ more ih =>
    rw [List.replicate_succ, List.flatten_cons]
    by_cases here : Affordable s.budget (a.toNat + 32)
    · obtain ⟨s₁, runs, moved⟩ := m.own env (List.replicate (more + 1) m.ops).flatten stack here
      rw [runs, ← requiredFrom_succ start here, ← moved.budget]
      exact ih moved.stack (start_next start here)
    · exact ⟨fun pays => absurd (pays.mono (le_requiredFrom _ _ _)) here, fun _ => m.own_short env _ stack here⟩

/-- **Motifs after the check**, next to motifs that check every access. -/
theorem motifs_covered (m : Motif) (env : BlockEnv) (total more : Nat) {size : Nat} {t : DirectState}
    (ahead : Ahead size t s) (stack : s.stack = a :: w :: st)
    (start : a.toNat = 0 ∨ w.toNat ≤ a.toNat) (pays : Affordable s.budget (requiredFrom a w more))
    (reach : grownSize s.memory.length (requiredFrom a w more) = size) :
    ∃ t' s', directRun env (List.replicate (more + 1) m.ops).flatten (linearPlans m total true (more + 1)) t =
        .ok (linearPlans m total true 0, t') ∧
      directRun env (List.replicate (more + 1) m.ops).flatten .none s = .ok (.none, s') ∧ EndsAlike t' s' := by
  have here := pays.mono (le_requiredFrom _ _ _)
  have fits : grownSize s.memory.length (a.toNat + 32) ≤ size :=
    reach ▸ grownSize_mono _ (le_requiredFrom _ _ _)
  induction more generalizing t s a with
  | zero =>
    obtain ⟨t', s', left, right, after, moved⟩ := m.covered env [] ahead stack here fits total 0
    obtain ⟨memory, gas⟩ := after.eq (moved.size.trans reach)
    exact ⟨t', s', left, right, after.stack, memory, gas, after.msizes⟩
  | succ more ih =>
    obtain ⟨t₁, s₁, left, right, after, moved⟩ :=
      m.covered env (List.replicate (more + 1) m.ops).flatten ahead stack here fits total (more + 1)
    have larger : max (a.toNat + 32) (requiredFrom a w (more + 1)) = requiredFrom a w (more + 1) :=
      Nat.max_eq_right (le_requiredFrom _ _ _)
    have reach₁ : grownSize s₁.memory.length (requiredFrom (w + a) w more) = size := by
      rw [moved.size, requiredFrom_succ start here, grownSize_grownSize, larger, reach]
    rw [← requiredFrom_succ start here, ← moved.budget] at pays
    obtain ⟨t', s', left', right', alike⟩ := ih after moved.stack (start_next start here) pays reach₁
      (pays.mono (le_requiredFrom _ _ _)) (reach₁ ▸ grownSize_mono _ (le_requiredFrom _ _ _))
    refine ⟨t', s', ?_, ?_, alike⟩
    · rw [List.replicate_succ, List.flatten_cons, left, left']
    · rw [List.replicate_succ, List.flatten_cons, right, right']

/-! ## The first access -/

theorem Motif.ready_grow (m : Motif) (required : Nat) (st : List Word) (s : DirectState) :
    (m.ready a w st s).grow required = m.ready a w st (s.grow required) := by
  by_cases enough : required ≤ s.memory.length
  · have same : s.grow required = s := if_pos enough
    rw [same]
    exact if_pos enough
  · have grown : s.grow required = s.extendTo (roundUp required) _ := if_neg enough
    rw [grown]
    exact if_neg enough

theorem Motif.check_first (m : Motif) {n : Nat} (some : 2 ≤ n) (left : Nat) (st : List Word) (s : DirectState) :
    checkAccess m.op ((m.ready 0 w st s).stack.headD 0)
        ((linearPlans m n false (left + 1)).prepare m.op (m.ready 0 w st s).stack) (m.ready 0 w st s) =
      if Affordable s.budget (linearRequired n w.toNat)
        then .ok (0, true, linearPlans m n true left, (m.ready 0 w st s).grow (linearRequired n w.toNat))
        else .error .gasLimitExceeded := by
  have found : (m.ready 0 w st s).stack[m.strideStackIndex]? = .some w := by
    cases m <;> rfl
  exact checkAccess_linear_first some left m.ready_head found _

section

variable (m : Motif) (env : BlockEnv) {n : Nat} (left : Nat) (ops : List DirectOp)
variable {s : DirectState} {w : Word} {st : List Word} (stack : s.stack = 0 :: w :: st) (some : 2 ≤ n)
include stack some

theorem Motif.first_short (short : ¬ Affordable s.budget (linearRequired n w.toNat)) :
    directRun env (m.ops ++ ops) (linearPlans m n false (left + 1)) s = .error .gasLimitExceeded :=
  m.run_error env _ ops stack (handleAccess_error ((m.check_first some left st s).trans (if_neg short)))

variable (pays : Affordable s.budget (linearRequired n w.toNat))

include pays

theorem Motif.first_null (enough : linearRequired n w.toNat ≤ s.memory.length) (null : s.memoryBaseVar = .null) :
    directRun env (m.ops ++ ops) (linearPlans m n false (left + 1)) s = .error .badAccess := by
  refine m.run_error env _ ops stack (handleAccess_null ((m.check_first some left st s).trans (if_pos pays)) ?_)
  rw [m.ready_grow, DirectState.grow, if_pos enough]
  exact null

theorem Motif.first_grows : directRun env (m.ops ++ ops) (linearPlans m n false (left + 1)) s =
      directRun env (m.ops ++ ops) (linearPlans m n true (left + 1)) (s.grow (linearRequired n w.toNat)) := by
  have first := (m.check_first some left st s).trans (if_pos pays)
  have again := checkAccess_linear m n left 0 (m.ready 0 w st s).stack
    ((m.ready 0 w st s).grow (linearRequired n w.toNat))
  have same : handleAccess m.op (linearPlans m n false (left + 1)) (m.ready 0 w st s) =
      handleAccess m.op (linearPlans m n true (left + 1)) ((m.ready 0 w st s).grow (linearRequired n w.toNat)) := by
    simp only [handleAccess, DirectState.grow_stack]
    rw [first, m.ready_head, again]
    rfl
  rw [m.run_ops env _ ops stack, m.run_ops env _ ops ((s.grow_stack _).trans stack), directRun, directRun,
    directStep_memory (m.runs_access env), directStep_memory (m.runs_access env), same, m.ready_grow]

end

/-- **Motifs with one check**, next to motifs that check every access. -/
theorem motifs_shared (m : Motif) (env : BlockEnv) {more : Nat} (some : 2 ≤ more + 1) (stack : s.stack = 0 :: w :: st)
    (pays : Affordable s.budget (linearRequired (more + 1) w.toNat))
    (base : s.memoryBaseVar = .buffer ∨ s.memory.length < linearRequired (more + 1) w.toNat) :
    ∃ t' s', directRun env (List.replicate (more + 1) m.ops).flatten (linearPlans m (more + 1) false (more + 1)) s =
        .ok (linearPlans m (more + 1) true 0, t') ∧
      directRun env (List.replicate (more + 1) m.ops).flatten .none s = .ok (.none, s') ∧ EndsAlike t' s' := by
  obtain ⟨t', s', left, right, alike⟩ := motifs_covered m env (more + 1) more (.grow pays base) stack (.inl rfl)
    (by rw [requiredFrom_zero]; exact pays) (by rw [requiredFrom_zero])
  refine ⟨t', s', ?_, right, alike⟩
  rw [← left, List.replicate_succ, List.flatten_cons]
  exact m.first_grows env more _ stack some pays

/-! ## The opcodes before the motifs -/

variable {env : BlockEnv} {code : Bytes}

theorem directRun_zeroPush {op : DirectOp} (zero : IsZeroPush op) (defined : op.Defined env)
    (ops : List DirectOp) (plans : Plans) (s : DirectState) :
    directRun env (op :: ops) plans s = directRun env ops plans { s with stack := 0 :: s.stack } := by
  cases op with
  | push0 => exact directRun_stackOnly rfl rfl ⟨defined, Nat.zero_le _⟩ rfl
  | push n v =>
    cases zero
    exact directRun_stackOnly rfl rfl ⟨defined, Nat.zero_le _⟩ rfl
  | _ => cases zero

/-- The state with address zero and the stride on the stack. -/
def DirectState.withStride (w : Word) (s : DirectState) : DirectState := { s with stack := 0 :: w :: s.stack }

theorem IsLead.run {lead : List DirectOp} (h : IsLead lead)
    (defined : ∀ op ∈ lead, op.Defined env) (ops : List DirectOp) (plans : Plans) (s : DirectState) :
    directRun env (lead ++ ops) plans s = directRun env ops plans (s.withStride (env.callDataLoad 0)) := by
  obtain ⟨dest, first, second, isDest, zero, zero', rfl⟩ := h.shape
  have entry : directRun env (dest ++ first :: .calldataload :: second :: ops) plans s =
      directRun env (first :: .calldataload :: second :: ops) plans s := by
    rcases isDest with rfl | rfl
    · rfl
    · exact directRun_stackOnly rfl rfl ⟨fun h => (nomatch h.1), Nat.zero_le _⟩ rfl
  have load (s : DirectState) : directRun env (.calldataload :: second :: ops) plans
        { s with stack := 0 :: s.stack } =
      directRun env (second :: ops) plans { s with stack := env.callDataLoad 0 :: s.stack } :=
    directRun_stackOnly rfl rfl ⟨fun h => (nomatch h.1), Nat.le_add_left _ _⟩ rfl
  rw [List.append_assoc, List.cons_append, List.cons_append, List.cons_append, List.nil_append, entry,
    directRun_zeroPush zero (defined first (by simp)), load,
    directRun_zeroPush zero' (defined second (by simp))]
  rfl

/-! ## When the check is right -/

theorem analyzeLinearPrecheck_eq {entryPC : Nat} {plan : LinearPlan}
    (eligible : analyzeLinearPrecheck code entryPC = some plan) :
    ∃ m n, linearAccesses code m entryPC = some n ∧ plan = linearPlan m n := by
  rw [analyzeLinearPrecheck, Option.or_eq_some_iff] at eligible
  rcases eligible with load | ⟨-, store⟩
  · obtain ⟨n, found, rfl⟩ := Option.map_eq_some_iff.mp load
    exact ⟨.mload, n, found, rfl⟩
  · obtain ⟨n, found, rfl⟩ := Option.map_eq_some_iff.mp store
    exact ⟨.mstore, n, found, rfl⟩

def accessAddress (w : Word) (i : Nat) : Word := BitVec.ofNat 256 i * w

/-- The low limbs of the addresses are the addresses, if the last of them can be paid. -/
theorem accessAddress_exact {n i : Nat} (lt : i < n) {w : Word} {budget : Nat}
    (pays : Affordable budget (linearRequired n w.toNat)) :
    (accessAddress w i).toNat = i * w.toNat ∧ (accessAddress w i).low64 = i * w.toNat ∧
      i * w.toNat + 32 ≤ linearRequired n w.toNat := by
  have le : i * w.toNat ≤ w.toNat * (n - 1) := by
    rw [Nat.mul_comm]
    exact Nat.mul_le_mul_left _ (by omega)
  have limit : maxRequiredMemorySize < 2 ^ 64 := by decide
  have small : i * w.toNat < 2 ^ 64 := by
    have bound := pays.1
    rw [linearRequired] at bound
    omega
  have same : (accessAddress w i).toNat = i * w.toNat := by
    rw [accessAddress, BitVec.toNat_mul, BitVec.toNat_ofNat, Nat.mod_mul_mod, Nat.mod_eq_of_lt]
    omega
  refine ⟨same, ?_, Nat.add_le_add_right le 32⟩
  rw [low64_of_lt (same ▸ small), same]

/-- **A linear block** runs its motifs, from address zero on. -/
theorem linear_run (env : BlockEnv) {m : Motif} {entryPC n : Nat} (found : linearAccesses code m entryPC = some n) :
    ∃ more, n = more + 1 ∧ 2 ≤ more + 1 ∧ ((∀ op ∈ precheckedBlock code entryPC, op.Defined env) →
      ∀ plans s, directRun env (precheckedBlock code entryPC) plans s =
        directRun env (List.replicate (more + 1) m.ops).flatten plans (s.withStride (env.callDataLoad 0))) := by
  obtain ⟨enough, lead, isLead, block⟩ := linearAccesses_block found
  obtain ⟨more, rfl⟩ : ∃ more, n = more + 1 := ⟨n - 1, by omega⟩
  refine ⟨more, rfl, enough, fun defined plans s => ?_⟩
  rw [block] at defined ⊢
  exact isLead.run (fun op mem => defined op (List.mem_append_left _ mem)) _ plans s

/-- **One check for all accesses of a linear block.** In every state it fails exactly if one of the accesses
would. If it succeeds then every access lies in the memory that it leaves, and the low limb of its address is
the address. The block ends as one that checks every access exactly if the base address is up to date where
the memory need not grow, or if the block fails anyway. -/
theorem linearPrecheck_sound_iff {code : Bytes} {entryPC : Nat} {plan : LinearPlan}
    (eligible : analyzeLinearPrecheck code entryPC = some plan) (env : BlockEnv) (s : DirectState) :
    ((∀ op ∈ precheckedBlock code entryPC, op.Defined env) →
      ((∃ e, linearCheck plan 0 (env.callDataLoad 0) s = .error e) ↔
        ∃ e, directRun env (precheckedBlock code entryPC) .none s = .error e)) ∧
    (∀ grown, linearCheck plan 0 (env.callDataLoad 0) s = .ok grown → ∀ i < plan.coveredDirectOpsTotal,
      (accessAddress (env.callDataLoad 0) i).toNat = i * (env.callDataLoad 0).toNat ∧
      (accessAddress (env.callDataLoad 0) i).low64 = i * (env.callDataLoad 0).toNat ∧
      i * (env.callDataLoad 0).toNat + plan.accessWidth ≤ grown.memory.length) ∧
    (outcome (directRun env (precheckedBlock code entryPC) { linear := plan } s) =
        outcome (directRun env (precheckedBlock code entryPC) .none s) ↔
      ((∀ op ∈ precheckedBlock code entryPC, op.Defined env) →
        Affordable s.budget (linearRequired plan.coveredDirectOpsTotal (env.callDataLoad 0).toNat) →
        linearRequired plan.coveredDirectOpsTotal (env.callDataLoad 0).toNat ≤ s.memory.length →
        s.memoryBaseVar = .buffer)) := by
  obtain ⟨m, n, found, rfl⟩ := analyzeLinearPrecheck_eq eligible
  obtain ⟨more, rfl, enough, runs⟩ := linear_run env found
  have total : (linearPlan m (more + 1)).coveredDirectOpsTotal = more + 1 := rfl
  have start : ({ linear := linearPlan m (more + 1) } : Plans) = linearPlans m (more + 1) false (more + 1) := rfl
  rw [linearCheck_eq rfl enough, total, start]
  generalize hw : env.callDataLoad 0 = w at runs ⊢
  have own := motifs_own m env more (s := s.withStride w) rfl (.inl rfl)
  rw [requiredFrom_zero] at own
  refine ⟨fun defined => ?_, ?_, ?_⟩
  · rw [runs defined]
    split
    · next pays =>
      obtain ⟨s', own⟩ := own.1 pays
      rw [own]
      exact ⟨fun ⟨_, h⟩ => (nomatch h), fun ⟨_, h⟩ => (nomatch h)⟩
    · next short => exact ⟨fun _ => own.2 short, fun _ => ⟨_, rfl⟩⟩
  · intro grown passes i lt
    split at passes
    · next pays =>
      cases passes
      obtain ⟨same, low, inside⟩ := accessAddress_exact lt pays
      exact ⟨same, low, Nat.le_trans inside (s.le_length_grow _)⟩
    · cases passes
  · by_cases defined : ∀ op ∈ precheckedBlock code entryPC, op.Defined env
    · rw [runs defined, runs defined, forall_prop_of_true defined]
      by_cases pays : Affordable s.budget (linearRequired (more + 1) w.toNat)
      · rw [forall_prop_of_true pays]
        constructor
        · intro same large
          obtain ⟨s', own⟩ := own.1 pays
          cases var : s.memoryBaseVar with
          | buffer => rfl
          | null =>
            have error := m.first_null env more (List.replicate more m.ops).flatten (s := s.withStride w) rfl enough pays
              large var
            rw [List.replicate_succ, List.flatten_cons] at same own
            rw [error, own] at same
            cases same
        · intro current
          have base : s.memoryBaseVar = .buffer ∨ s.memory.length < linearRequired (more + 1) w.toNat := by
            rcases Nat.lt_or_ge s.memory.length (linearRequired (more + 1) w.toNat) with less | large
            · exact .inr less
            · exact .inl (current large)
          obtain ⟨t', s', shared, own, alike⟩ := motifs_shared m env enough (s := s.withStride w) rfl pays base
          rw [shared, own]
          exact alike.outcome _ _
      · obtain ⟨e, own⟩ := own.2 pays
        have error := m.first_short env more (List.replicate more m.ops).flatten (s := s.withStride w) rfl enough pays
        rw [List.replicate_succ, List.flatten_cons] at own ⊢
        rw [error, own]
        exact ⟨fun _ affords => absurd affords pays, fun _ => rfl⟩
    · rw [outcome_undefined defined, outcome_undefined defined]
      exact ⟨fun _ all => absurd all defined, fun _ => rfl⟩

/-- `PUSH0, CALLDATALOAD, PUSH0` and two loads. -/
def twoStridedLoads : Bytes :=
  [0x5F, 0x35, 0x5F, 0x80, 0x51, 0x50, 0x81, 0x01, 0x80, 0x51, 0x50, 0x81, 0x01]

/-- Two loads at a distance of one word in a fresh frame. -/
theorem linearPrecheck_sound_fresh : analyzeLinearPrecheck twoStridedLoads 0 = some (linearPlan .mload 2) ∧
      outcome (directRun (.stride 32) (precheckedBlock twoStridedLoads 0) { linear := linearPlan .mload 2 }
        (.fresh 100)) = outcome (directRun (.stride 32) (precheckedBlock twoStridedLoads 0) .none (.fresh 100)) := by
  have eligible : analyzeLinearPrecheck twoStridedLoads 0 = some (linearPlan .mload 2) := by decide +kernel
  refine ⟨eligible, (linearPrecheck_sound_iff eligible (.stride 32) (.fresh 100)).2.2.mpr ?_⟩
  intro _ _ large
  exact absurd large (by decide)

/-- The same loads from memory that a call has grown go through the null address. -/
theorem linearPrecheck_unsound : analyzeLinearPrecheck twoStridedLoads 0 = some (linearPlan .mload 2) ∧
      outcome (directRun (.stride 32) (precheckedBlock twoStridedLoads 0) { linear := linearPlan .mload 2 }
        (.grownByCall 100)) = none ∧
      (outcome (directRun (.stride 32) (precheckedBlock twoStridedLoads 0) .none (.grownByCall 100))).map
        (fun o => o.1) = some [64, 32] := by
  decide +kernel

end Dtvm.Jit
