import Dtvm.Search.Cases
import Mathlib.Data.Int.Order.Basic
import Mathlib.Data.List.Nodup
import Mathlib.Data.Nat.Basic

/-!
# Switches in compiled code

`X86CgLowering::lowerSwitchStmt` turns a switch over 64-bit cases into a jump table, a binary search or a chain of
comparisons. A block that is only reached by falling out of the one before it (`startNewBlockAfterBranch`) is the
rest of that one's instruction list; the blocks of a binary search have labels, as in the source.

All comparisons are of 32 bits (`CMP32ri`), also where the operand has 64. So a switch is right for an operand of
32 bits and for one whose lower half is no case (`lowerSwitchStmt_exact`), and wrong for every other
(`lowerSwitchStmt_wrong`), where it goes to the case of the lower half, or indexes a jump table past its end.
-/

namespace Dtvm.Jit

variable {β : Type}

/-! ## The code -/

/-- The condition codes in use: equal, less (signed), above (unsigned). -/
inductive CondCode where
  | e | l | a
deriving DecidableEq, Repr

/-- Where a branch goes: to a block of the function or to one the lowering has made. -/
inductive Target (β : Type) where
  | block (b : β)
  | label (n : Nat)
deriving DecidableEq, Repr

/-- The instructions, over the one register that holds the operand. `jmpTable` is the sequence
`LEA64r`, `MOVSX64rm32`, `ADD64rr`, `JMP64r` with that register for an index. -/
inductive Inst (β : Type) where
  | add64ri (imm : BitVec 64)
  | add32ri (imm : BitVec 32)
  | cmp32ri (imm : BitVec 32)
  | jcc (cc : CondCode) (target : Target β)
  | jmp (target : Target β)
  | jmpTable (targets : List β)
deriving Repr

/-- How a list of instructions ends: in a branch, in a jump through memory outside of the table, or
with no branch at all. -/
inductive Exit (β : Type) where
  | to (target : Target β)
  | wild
  | off
deriving DecidableEq, Repr

def Exit.through : Option β → Exit β
  | none => .wild
  | some b => .to (.block b)

/-- The register, and what was compared last if nothing has written the flags since. -/
structure Cpu where
  reg : BitVec 64
  flags : Option (BitVec 32 × BitVec 32)

def CondCode.holds : CondCode → BitVec 32 × BitVec 32 → Bool
  | .e, (x, y) => x == y
  | .l, (x, y) => x.slt y
  | .a, (x, y) => y.ult x

def exec : List (Inst β) → Cpu → Exit β
  | [], _ => .off
  | .add64ri imm :: rest, c => exec rest ⟨c.reg + imm, none⟩
  | .add32ri imm :: rest, c => exec rest ⟨(c.reg.setWidth 32 + imm).setWidth 64, none⟩
  | .cmp32ri imm :: rest, c => exec rest { c with flags := some (c.reg.setWidth 32, imm) }
  | .jcc cc target :: rest, c =>
    match c.flags with
    | none => .off
    | some compared => if cc.holds compared then .to target else exec rest c
  | .jmp target :: _, _ => .to target
  | .jmpTable targets :: _, c => .through targets[c.reg.toNat]?

/-- Blocks by label; `0` is the one the switch stands in. -/
abbrev Asm (β : Type) := List (Nat × List (Inst β))

def Exit.next (go : Nat → Exit β) : Exit β → Exit β
  | .to (.label n) => go n
  | exit => exit

/-- Follow the labels, with the operand in the register at the start of every block. -/
def follow (code : Asm β) (operand : BitVec 64) : Nat → Nat → Exit β
  | 0, _ => .off
  | fuel + 1, n =>
    match code.lookup n with
    | none => .off
    | some insts => (exec insts ⟨operand, none⟩).next (follow code operand fuel)

/-! ## The lowering -/

def isJumpTableSuitable (imms : List Int) : Bool :=
  decide (3 < imms.length) && (imms.zip imms.tail).all fun p => p.2 - p.1 == 1

def compareCase (c : Int × β) : List (Inst β) :=
  [.cmp32ri (.ofInt 32 c.1), .jcc .e (.block c.2)]

def compareChain (cases : List (Int × β)) (default : β) : List (Inst β) :=
  cases.flatMap compareCase ++ [.jmp (.block default)]

/-- `getADDriOpcode`, by the width of the operand. -/
def addri (w : Nat) (imm : Int) : Inst β :=
  if w = 64 then .add64ri (.ofInt 64 imm) else .add32ri (.ofInt 32 imm)

/-- The jump table of a switch over `w` bits. -/
def jumpTable (w : Nat) (cases : List (Int × β)) (default : β) : List (Inst β) :=
  (match cases with
    | [] => []
    | (first, _) :: _ => if first ≠ 0 then [addri w (-first)] else []) ++
  [.cmp32ri (.ofNat 32 (cases.length - 1)), .jcc .a (.block default), .jmpTable (cases.map Prod.snd)]

/-- One pass of the bubble sort, with `n` comparisons. -/
def bubblePass : Nat → List (Int × β) → List (Int × β)
  | n + 1, a :: b :: rest =>
    if a.1 > b.1 then b :: bubblePass n (a :: rest) else a :: bubblePass n (b :: rest)
  | _, cases => cases

def bubbleSort (cases : List (Int × β)) : List (Int × β) :=
  (List.range (cases.length - 1)).foldl (fun cs i => bubblePass (cases.length - i - 1) cs) cases

/-- `BinarySearchContext`. -/
structure SearchContext where
  bb : Nat
  startIdx : Nat
  endIdx : Nat
deriving DecidableEq, Repr

section Search

variable (cases : List (Int × β)) (default : β)

/-- Compare with the case at an index and branch to its block. -/
def compareAt (i : Nat) : List (Inst β) :=
  match cases[i]? with
  | none => []
  | some c => compareCase c

/-- Compare with the case at an index once more and branch if less. -/
def lessAt (i : Nat) (target : Target β) : List (Inst β) :=
  match cases[i]? with
  | none => []
  | some c => [.cmp32ri (.ofInt 32 c.1), .jcc .l target]

/-- The body of the search loop: the block's instructions, the contexts pushed (the last one first)
and the next free label. -/
def searchBlock (ctx : SearchContext) (next : Nat) :
    List (Inst β) × List SearchContext × Nat :=
  let (s, e) := (ctx.startIdx, ctx.endIdx)
  if s = e then (compareAt cases s ++ [.jmp (.block default)], [], next)
  else if e - s = 1 then
    (compareAt cases s ++ compareAt cases e ++ [.jmp (.block default)], [], next)
  else
    let mid := s + (e - s) / 2
    (compareAt cases mid ++ lessAt cases mid (.label next) ++ [.jmp (.label (next + 1))],
      [⟨next + 1, mid + 1, e⟩, ⟨next, s, mid - 1⟩], next + 2)

/-- The search loop; a unit of fuel for each case is enough. -/
def searchLoop : Nat → List SearchContext → Nat → Asm β → Asm β
  | fuel + 1, ctx :: rest, next, code =>
    let (insts, pushed, next) := searchBlock cases default ctx next
    searchLoop fuel (pushed ++ rest) next (code ++ [(ctx.bb, insts)])
  | _, _, _, code => code

end Search

/-- The branch that the source emits after the search loop, into the block it made last. -/
def appendLast (code : Asm β) (inst : Inst β) : Asm β :=
  match code.getLast? with
  | none => code
  | some (n, insts) => code.dropLast ++ [(n, insts ++ [inst])]

def binarySearch (cases : List (Int × β)) (default : β) : Asm β :=
  let sorted := bubbleSort cases
  appendLast (searchLoop sorted default cases.length [⟨0, 0, cases.length - 1⟩] 1 [])
    (.jmp (.block default))

def minBinarySearchCases : Nat := 8

/-- `lowerSwitchStmt`, in a build with or without `ZEN_ENABLE_EVM`. -/
def lowerSwitchStmt [DecidableEq β] (evm : Bool) {w : Nat} (cases : List (BitVec w × β))
    (default : β) : Asm β :=
  if cases.all fun c => c.2 = default then [(0, [.jmp (.block default)])]
  else
    let imms := cases.map fun c => (c.1.toInt, c.2)
    if isJumpTableSuitable (imms.map Prod.fst) then [(0, jumpTable w imms default)]
    else if evm ∧ imms.length > minBinarySearchCases then binarySearch imms default
    else [(0, compareChain imms default)]

def runSwitch [DecidableEq β] (cases : List (BitVec 64 × β)) (default : β) (operand : BitVec 64) :
    Exit β :=
  follow (lowerSwitchStmt true cases default) operand (cases.length + 1) 0

/-- Run a lowered switch over 32 bits: an instruction that writes half a register clears the other
half. -/
def runSwitch32 [DecidableEq β] (evm : Bool) (cases : List (BitVec 32 × β)) (default : β)
    (operand : BitVec 32) : Exit β :=
  follow (lowerSwitchStmt evm cases default) (operand.setWidth 64) (cases.length + 1) 0

/-! ## Comparisons -/

def signedLow (operand : BitVec 64) : Int := (operand.setWidth 32).toInt

def IsImm32 (k : Int) : Prop := -2 ^ 31 ≤ k ∧ k < 2 ^ 31

variable {k : Int} {c : Int × β} {cases : List (Int × β)} {code : Asm β} {ctx : SearchContext}

theorem toInt_ofInt (imm : IsImm32 k) : (BitVec.ofInt 32 k).toInt = k := by
  obtain ⟨low, high⟩ := imm
  rw [BitVec.toInt_ofInt]
  exact Int.bmod_eq_of_le (by omega) (by omega)

theorem holds_e (imm : IsImm32 k) (v : BitVec 64) :
    CondCode.holds .e (v.setWidth 32, .ofInt 32 k) = decide (signedLow v = k) := by
  apply decide_eq_decide.mpr
  rw [← BitVec.toInt_inj, toInt_ofInt imm, signedLow]

theorem holds_l (imm : IsImm32 k) (v : BitVec 64) :
    CondCode.holds .l (v.setWidth 32, .ofInt 32 k) = decide (signedLow v < k) := by
  rw [CondCode.holds, BitVec.slt, toInt_ofInt imm, signedLow]

theorem exec_compareCase (imm : IsImm32 c.1) (rest : List (Inst β)) (v : BitVec 64)
    (flags : Option (BitVec 32 × BitVec 32)) : exec (compareCase c ++ rest) ⟨v, flags⟩ =
      if signedLow v = c.1 then .to (.block c.2)
      else exec rest ⟨v, some (v.setWidth 32, .ofInt 32 c.1)⟩ := by
  simp only [compareCase, List.cons_append, List.nil_append, exec, holds_e imm, decide_eq_true_eq]

theorem exec_compareChain (imms : ∀ c ∈ cases, IsImm32 c.1) (default : β)
    (v : BitVec 64) (flags : Option (BitVec 32 × BitVec 32)) : exec (compareChain cases default) ⟨v, flags⟩ =
      .to (.block ((cases.lookup (signedLow v)).getD default)) := by
  unfold compareChain
  induction cases generalizing flags with
  | nil => rfl
  | cons c rest ih =>
    obtain ⟨own, others⟩ := List.forall_mem_cons.mp imms
    rw [List.flatMap_cons, List.append_assoc, exec_compareCase own, ih others, Search.lookup_cons_ite]
    by_cases here : signedLow v = c.1
    · rw [if_pos here, if_pos here]
      rfl
    · rw [if_neg here, if_neg here]

/-! ## The jump table -/

theorem consecutive_of_suitable
    (suitable : isJumpTableSuitable (cases.map Prod.fst) = true) : Search.Consecutive cases := by
  have steps := (Bool.and_eq_true_iff.mp suitable).2
  clear suitable
  induction cases with
  | nil => trivial
  | cons first rest ih =>
    cases rest with
    | nil => trivial
    | cons second rest =>
      simp only [List.map_cons, List.tail_cons, List.zip_cons_cons, List.all_cons,
        Bool.and_eq_true, beq_iff_eq] at steps ih
      exact ⟨steps.1, ih steps.2⟩

/-- What a jump table's code does, by the distance of the operand from the first case. -/
theorem exec_jumpTable_eq {first : Int × β} {rest : List (Int × β)} (default : β) (v : BitVec 64)
    (flags : Option (BitVec 32 × BitVec 32)) : exec (jumpTable 64 (first :: rest) default) ⟨v, flags⟩ =
      if (BitVec.ofNat 32 rest.length).ult ((v + .ofInt 64 (-first.1)).setWidth 32) then
        .to (.block default)
      else .through ((first :: rest).map Prod.snd)[(v + .ofInt 64 (-first.1)).toNat]? := by
  obtain ⟨key, value⟩ := first
  by_cases zero : key = 0
  · subst zero
    rw [show v + BitVec.ofInt 64 (-0) = v by simp]
    rfl
  · rw [jumpTable, if_pos zero]
    rfl

/-- A case that compiled code can name: an offset into code of at most 2 GiB. -/
def IsOffset (k : Int) : Prop := 0 ≤ k ∧ k < 2 ^ 31

theorem IsOffset.imm (h : IsOffset k) : IsImm32 k := ⟨by have := h.1; omega, h.2⟩

def lowHalf (v : BitVec 64) : Nat := v.toNat % 2 ^ 32

theorem toNat_distance (offset : IsOffset k) (v : BitVec 64) :
    (v + .ofInt 64 (-k)).toNat = if k ≤ v.toNat then v.toNat - k.toNat
      else 2 ^ 64 - (k.toNat - v.toNat) := by
  obtain ⟨low, high⟩ := offset
  obtain ⟨n, rfl⟩ := Int.eq_ofNat_of_zero_le low
  have minus : (-(n : Int)) % ((2 ^ 64 : Nat) : Int) = if n = 0 then 0 else 2 ^ 64 - (n : Int) := by
    split
    · subst n
      rfl
    · omega
  rw [BitVec.toNat_add, BitVec.toNat_ofInt, minus]
  split <;> split <;> omega

/-- **The jump table.** The lower half decides whether there is a case; the whole operand is the
index. -/
theorem exec_jumpTable {first : Int × β} {rest : List (Int × β)} (consecutive : Search.Consecutive (first :: rest))
    (offsets : ∀ c ∈ first :: rest, IsOffset c.1) (default : β) (v : BitVec 64)
    (flags : Option (BitVec 32 × BitVec 32)) : exec (jumpTable 64 (first :: rest) default) ⟨v, flags⟩ =
      ((first :: rest).lookup (lowHalf v : Int)).elim (.to (.block default)) fun b =>
        if v.toNat < 2 ^ 32 then .to (.block b) else .wild := by
  have own : IsOffset first.1 := offsets first List.mem_cons_self
  -- The last key bounds the length of the table.
  obtain ⟨last, atEnd⟩ : ∃ c, (first :: rest)[rest.length]? = some c :=
    ⟨_, List.getElem?_eq_getElem (Nat.lt_succ_self _)⟩
  have bound : first.1 + rest.length < 2 ^ 31 :=
    consecutive.key atEnd ▸ (offsets last (List.mem_of_getElem? atEnd)).2
  have distance := toNat_distance own v
  obtain ⟨low, high⟩ := own
  have half : ((v + .ofInt 64 (-first.1)).setWidth 32).toNat =
      (v + .ofInt 64 (-first.1)).toNat % 2 ^ 32 := BitVec.toNat_setWidth ..
  have count : (BitVec.ofNat 32 rest.length).toNat = rest.length :=
    Nat.mod_eq_of_lt (by omega)
  rw [exec_jumpTable_eq, Search.lookup_consecutive consecutive, BitVec.ult, half, count]
  generalize (v + BitVec.ofInt 64 (-first.1)).toNat = index at distance
  unfold lowHalf
  by_cases inside : first.1 ≤ (v.toNat % 2 ^ 32 : Nat) ∧
      (v.toNat % 2 ^ 32 : Nat) ≤ first.1 + rest.length
  · obtain ⟨from_first, to_last⟩ := inside
    have near : index % 2 ^ 32 = (((v.toNat % 2 ^ 32 : Nat) : Int) - first.1).toNat := by
      split at distance <;> omega
    have within : ¬ rest.length < index % 2 ^ 32 := by omega
    obtain ⟨c, here⟩ : ∃ c, (first :: rest)[index % 2 ^ 32]? = some c :=
      ⟨_, List.getElem?_eq_getElem (by simp only [List.length_cons]; omega)⟩
    rw [if_neg (by simpa using within), if_pos from_first, ← near, here, List.getElem?_map]
    show _ = if v.toNat < 2 ^ 32 then _ else _
    by_cases narrow : v.toNat < 2 ^ 32
    · have whole : index = index % 2 ^ 32 := by split at distance <;> omega
      rw [if_pos narrow, whole, here]
      rfl
    · have far : (first :: rest)[index]? = none := by
        apply List.getElem?_eq_none
        simp only [List.length_cons]
        split at distance <;> omega
      rw [if_neg narrow, far]
      rfl
  · have beyond : rest.length < index % 2 ^ 32 := by split at distance <;> omega
    rw [if_pos (by simpa using beyond)]
    split
    · rw [List.getElem?_eq_none (by simp only [List.length_cons]; omega)]
      rfl
    · rfl

/-! ## The binary search -/

def Emits (code : Asm β) (n : Nat) (insts : List (Inst β)) : Prop :=
  ∃ tail, code.lookup n = some (insts ++ tail)

/-- The code at a label searches the cases between two indices. -/
inductive Covers (cases : List (Int × β)) (default : β) (code : Asm β) : Nat → Nat → Nat → Prop
  | one {n s : Nat} (block : Emits code n (compareAt cases s ++ [.jmp (.block default)])) :
    Covers cases default code n s s
  | two {n s : Nat}
      (block : Emits code n
        (compareAt cases s ++ compareAt cases (s + 1) ++ [.jmp (.block default)])) :
    Covers cases default code n s (s + 1)
  | split {n s mid e less greater : Nat} (left : s < mid) (right : mid < e)
      (block : Emits code n
        (compareAt cases mid ++ lessAt cases mid (.label less) ++ [.jmp (.label greater)]))
      (below : Covers cases default code less s (mid - 1))
      (above : Covers cases default code greater (mid + 1) e) :
    Covers cases default code n s e

theorem follow_of_emits {n : Nat} {insts : List (Inst β)} (h : Emits code n insts) (v : BitVec 64) (fuel : Nat) :
    ∃ tail, follow code v (fuel + 1) n = (exec (insts ++ tail) ⟨v, none⟩).next (follow code v fuel) := by
  obtain ⟨tail, found⟩ := h
  refine ⟨tail, ?_⟩
  rw [follow, found]

theorem exec_compareAt {i : Nat} (here : cases[i]? = some c) (imm : IsImm32 c.1) (rest : List (Inst β)) (v : BitVec 64)
    (flags : Option (BitVec 32 × BitVec 32)) : exec (compareAt cases i ++ rest) ⟨v, flags⟩ =
      if signedLow v = c.1 then .to (.block c.2)
      else exec rest ⟨v, some (v.setWidth 32, .ofInt 32 c.1)⟩ := by
  rw [compareAt, here]
  exact exec_compareCase imm rest v flags

theorem exec_lessAt {i : Nat} (here : cases[i]? = some c)
    (imm : IsImm32 c.1) (target : Target β) (rest : List (Inst β)) (v : BitVec 64)
    (flags : Option (BitVec 32 × BitVec 32)) : exec (lessAt cases i target ++ rest) ⟨v, flags⟩ =
      if signedLow v < c.1 then .to target
      else exec rest ⟨v, some (v.setWidth 32, .ofInt 32 c.1)⟩ := by
  rw [lessAt, here]
  simp only [List.cons_append, List.nil_append, exec, holds_l imm, decide_eq_true_eq]

/-- **A search finds its case.** -/
theorem Covers.follow_eq {default : β} {n s e : Nat}
    (h : Covers cases default code n s e) (sorted : Search.Sorted cases)
    (imms : ∀ c ∈ cases, IsImm32 c.1) (inside : e < cases.length) (v : BitVec 64) {fuel : Nat} (enough : e - s < fuel) :
    follow code v fuel n = .to (.block (((Search.segment cases s (e + 1)).lookup (signedLow v)).getD default)) := by
  have at_ : ∀ {i : Nat}, i < cases.length → ∃ c, cases[i]? = some c ∧ IsImm32 c.1 :=
    fun lt => ⟨_, List.getElem?_eq_getElem lt, imms _ (List.getElem_mem lt)⟩
  obtain ⟨fuel, rfl⟩ : ∃ k, fuel = k + 1 := ⟨fuel - 1, by omega⟩
  induction h generalizing fuel with
  | @one n s block =>
    obtain ⟨c, here, imm⟩ := at_ inside
    obtain ⟨tail, run⟩ := follow_of_emits block v fuel
    rw [run, List.append_assoc, exec_compareAt here imm,
      Search.segment_cons cases (Nat.lt_succ_self s) here, Search.segment_self, Search.lookup_cons_ite]
    by_cases equal : signedLow v = c.1
    · rw [if_pos equal, if_pos equal]
      rfl
    · rw [if_neg equal, if_neg equal]
      rfl
  | @two n s block =>
    obtain ⟨c, here, imm⟩ := at_ (Nat.lt_of_succ_lt inside)
    obtain ⟨d, here', imm'⟩ := at_ inside
    obtain ⟨tail, run⟩ := follow_of_emits block v fuel
    rw [run, List.append_assoc, List.append_assoc, exec_compareAt here imm,
      exec_compareAt here' imm', Search.segment_cons cases (by omega) here,
      Search.segment_cons cases (by omega) here', Search.segment_self, Search.lookup_cons_ite,
      Search.lookup_cons_ite]
    by_cases equal : signedLow v = c.1
    · rw [if_pos equal, if_pos equal]
      rfl
    · rw [if_neg equal, if_neg equal]
      by_cases equal' : signedLow v = d.1
      · rw [if_pos equal', if_pos equal']
        rfl
      · rw [if_neg equal', if_neg equal']
        rfl
  | @split n s mid e less greater left right block below above ihBelow ihAbove =>
    obtain ⟨c, here, imm⟩ := at_ (Nat.lt_trans right inside)
    obtain ⟨tail, run⟩ := follow_of_emits block v fuel
    obtain ⟨fuel, rfl⟩ : ∃ k, fuel = k + 1 := ⟨fuel - 1, by omega⟩
    rw [run, List.append_assoc, List.append_assoc, exec_compareAt here imm, exec_lessAt here imm,
      Search.lookup_segment sorted (Nat.le_of_lt left) (Nat.lt_succ_of_lt right) here]
    by_cases equal : signedLow v = c.1
    · rw [if_pos equal, if_pos equal]
      rfl
    · rw [if_neg equal, if_neg equal]
      by_cases lower : signedLow v < c.1
      · rw [if_pos lower, if_pos lower]
        have found := ihBelow (by omega) fuel (by omega)
        rw [Nat.sub_add_cancel (Nat.one_le_of_lt left)] at found
        exact found
      · rw [if_neg lower, if_neg lower]
        exact ihAbove inside fuel (by omega)

/-! ### What the loop emits -/

def SearchContext.size (ctx : SearchContext) : Nat := ctx.endIdx - ctx.startIdx + 1

/-- The labels of the code and of the contexts are distinct and in use. -/
structure Labelled (code : Asm β) (stack : List SearchContext) (next : Nat) : Prop where
  distinct : (code.map Prod.fst ++ stack.map SearchContext.bb).Nodup
  used : ∀ n ∈ code.map Prod.fst ++ stack.map SearchContext.bb, n < next

theorem emits_of_labelled {more : Asm β} {rest : List SearchContext}
    {next : Nat} (labels : Labelled code (ctx :: rest) next) (insts : List (Inst β)) :
    Emits (code ++ [(ctx.bb, insts)] ++ more) ctx.bb insts := by
  refine ⟨[], ?_⟩
  have fresh : code.lookup ctx.bb = none := by
    apply List.lookup_eq_none_iff.mpr
    intro block mem
    have apart := (List.nodup_append.mp labels.distinct).2.2 block.1
      (List.mem_map_of_mem mem) ctx.bb List.mem_cons_self
    simpa using Ne.symm apart
  rw [List.append_assoc, List.lookup_append, fresh, Option.none_or, List.append_nil]
  exact List.lookup_cons_self

theorem Labelled.emitted {rest pushed : List SearchContext}
    {next next' : Nat} (labels : Labelled code (ctx :: rest) next) (insts : List (Inst β))
    (later : next ≤ next') (fresh : (pushed.map SearchContext.bb).Nodup)
    (new : ∀ c ∈ pushed, next ≤ c.bb ∧ c.bb < next') : Labelled (code ++ [(ctx.bb, insts)]) (pushed ++ rest) next' := by
  obtain ⟨distinct, used⟩ := labels
  have perm : ((code ++ [(ctx.bb, insts)]).map Prod.fst ++
      (pushed ++ rest).map SearchContext.bb).Perm
      ((code.map Prod.fst ++ (ctx :: rest).map SearchContext.bb) ++
        pushed.map SearchContext.bb) := by
    simp only [List.map_append, List.map_cons, List.map_nil, List.append_assoc, List.cons_append, List.nil_append]
    apply List.Perm.append_left
    apply List.Perm.cons
    exact List.perm_append_comm
  constructor
  · apply perm.nodup_iff.mpr
    apply List.nodup_append.mpr
    refine ⟨distinct, fresh, fun n old n' young => ?_⟩
    obtain ⟨c, mem, rfl⟩ := List.mem_map.mp young
    exact Nat.ne_of_lt (Nat.lt_of_lt_of_le (used n old) (new c mem).1)
  · intro n mem
    rcases List.mem_append.mp (perm.mem_iff.mp mem) with old | young
    · exact Nat.lt_of_lt_of_le (used n old) later
    · obtain ⟨c, mem', rfl⟩ := List.mem_map.mp young
      exact (new c mem').2

theorem searchBlock_cases (cases : List (Int × β)) (default : β) (ordered : ctx.startIdx ≤ ctx.endIdx) (next : Nat) :
    (ctx.endIdx = ctx.startIdx ∧ searchBlock cases default ctx next =
      (compareAt cases ctx.startIdx ++ [.jmp (.block default)], [], next)) ∨
    (ctx.endIdx = ctx.startIdx + 1 ∧ searchBlock cases default ctx next =
      (compareAt cases ctx.startIdx ++ compareAt cases (ctx.startIdx + 1) ++ [.jmp (.block default)], [], next)) ∨
    ∃ mid, ctx.startIdx < mid ∧ mid < ctx.endIdx ∧ searchBlock cases default ctx next =
      (compareAt cases mid ++ lessAt cases mid (.label next) ++ [.jmp (.label (next + 1))],
        [⟨next + 1, mid + 1, ctx.endIdx⟩, ⟨next, ctx.startIdx, mid - 1⟩], next + 2) := by
  unfold searchBlock
  by_cases one : ctx.startIdx = ctx.endIdx
  · exact .inl ⟨one.symm, by simp [one]⟩
  · by_cases two : ctx.endIdx - ctx.startIdx = 1
    · have gap : ctx.endIdx = ctx.startIdx + 1 := by omega
      exact .inr (.inl ⟨gap, by simp [gap]⟩)
    · refine .inr (.inr ⟨ctx.startIdx + (ctx.endIdx - ctx.startIdx) / 2, by omega, by omega, ?_⟩)
      simp [one, two]

/-- **The search loop** emits a search for every context on its stack. -/
theorem searchLoop_covers (cases : List (Int × β)) (default : β) (fuel : Nat)
    (stack : List SearchContext) (next : Nat) (code : Asm β) (labels : Labelled code stack next)
    (ordered : ∀ ctx ∈ stack, ctx.startIdx ≤ ctx.endIdx) (enough : (stack.map SearchContext.size).sum ≤ fuel) :
    ∃ more, searchLoop cases default fuel stack next code = code ++ more ∧
      ∀ ctx ∈ stack, Covers cases default (code ++ more) ctx.bb ctx.startIdx ctx.endIdx := by
  induction fuel generalizing stack next code with
  | zero =>
    cases stack with
    | nil => exact ⟨[], (List.append_nil _).symm, nofun⟩
    | cons ctx rest => simp [SearchContext.size] at enough
  | succ fuel ih =>
    cases stack with
    | nil => exact ⟨[], (List.append_nil _).symm, nofun⟩
    | cons ctx rest =>
      obtain ⟨own, others⟩ := List.forall_mem_cons.mp ordered
      rw [List.map_cons, List.sum_cons] at enough
      -- One round of the loop, for whatever the body emits and pushes.
      have round : ∀ {insts pushed next'}, searchBlock cases default ctx next = (insts, pushed, next') →
          next ≤ next' → (pushed.map SearchContext.bb).Nodup →
          (∀ c ∈ pushed, next ≤ c.bb ∧ c.bb < next') → (∀ c ∈ pushed, c.startIdx ≤ c.endIdx) →
          (pushed.map SearchContext.size).sum < ctx.size →
          (∀ code', Emits code' ctx.bb insts →
            (∀ c ∈ pushed, Covers cases default code' c.bb c.startIdx c.endIdx) →
            Covers cases default code' ctx.bb ctx.startIdx ctx.endIdx) →
          ∃ more, searchLoop cases default (fuel + 1) (ctx :: rest) next code = code ++ more ∧
            ∀ c ∈ ctx :: rest, Covers cases default (code ++ more) c.bb c.startIdx c.endIdx := by
        intro insts pushed next' emitted later fresh new ordered' less covered
        have small : ((pushed ++ rest).map SearchContext.size).sum ≤ fuel := by
          rw [List.map_append, List.sum_append]
          omega
        obtain ⟨more, all, covers⟩ := ih (pushed ++ rest) next' (code ++ [(ctx.bb, insts)])
          (labels.emitted insts later fresh new) (List.forall_mem_append.mpr ⟨ordered', others⟩) small
        obtain ⟨ofPushed, ofRest⟩ := List.forall_mem_append.mp covers
        refine ⟨[(ctx.bb, insts)] ++ more, ?_, ?_⟩
        · rw [searchLoop, emitted, ← List.append_assoc]
          exact all
        · rw [← List.append_assoc]
          exact List.forall_mem_cons.mpr ⟨covered _ (emits_of_labelled labels insts) ofPushed, ofRest⟩
      rcases searchBlock_cases cases default own next with
        ⟨same, emitted⟩ | ⟨gap, emitted⟩ | ⟨mid, left, right, emitted⟩
      · refine round emitted (Nat.le_refl _) List.nodup_nil (by simp) (by simp)
          (by simp [SearchContext.size]) fun code' block _ => ?_
        rw [same]
        exact .one block
      · refine round emitted (Nat.le_refl _) List.nodup_nil (by simp) (by simp)
          (by simp [SearchContext.size]) fun code' block _ => ?_
        rw [gap]
        exact .two block
      · refine round emitted (by omega) (by simp) (by simp) ?_ ?_ fun code' block inner => ?_
        · simp only [List.forall_mem_cons, List.not_mem_nil, false_imp_iff, implies_true, and_true]
          omega
        · simp only [List.map_cons, List.map_nil, List.sum_cons, List.sum_nil, SearchContext.size]
          omega
        · obtain ⟨above, below, -⟩ := by simpa only [List.forall_mem_cons] using inner
          exact .split left right block below above

theorem Covers.mono {default : β} {code' : Asm β} {n s e : Nat}
    (kept : ∀ n insts, Emits code n insts → Emits code' n insts)
    (h : Covers cases default code n s e) : Covers cases default code' n s e := by
  induction h with
  | one block => exact .one (kept _ _ block)
  | two block => exact .two (kept _ _ block)
  | split left right block _ _ below above => exact .split left right (kept _ _ block) below above

/-- The branch after the loop is never reached: every block before it ends in one. -/
theorem emits_appendLast (inst : Inst β) (n : Nat) (insts : List (Inst β))
    (h : Emits code n insts) : Emits (appendLast code inst) n insts := by
  obtain ⟨tail, found⟩ := h
  unfold appendLast
  split
  · exact ⟨tail, found⟩
  · rename_i m body last
    obtain ⟨front, rfl⟩ := List.getLast?_eq_some_iff.mp last
    rw [List.dropLast_concat]
    rw [List.lookup_append] at found
    cases early : front.lookup n with
    | some block =>
      rw [early, Option.some_or, Option.some.injEq] at found
      exact ⟨tail, by rw [List.lookup_append, early, Option.some_or, found]⟩
    | none =>
      rw [early, Option.none_or, List.lookup_cons] at found
      split at found
      · rename_i same
        refine ⟨tail ++ [inst], ?_⟩
        rw [List.lookup_append, early, Option.none_or, List.lookup_cons, same, Option.some.inj found, List.append_assoc]
      · cases found

theorem bubblePass_max {n : Nat} {front : List (Int × β)} (length : front.length = n + 1) (back : List (Int × β)) :
    ∃ init last, bubblePass n (front ++ back) = init ++ last :: back ∧
      (init ++ [last]).Perm front ∧ ∀ c ∈ front, c.1 ≤ last.1 := by
  induction n generalizing front with
  | zero =>
    obtain ⟨c, rfl⟩ := List.length_eq_one_iff.mp length
    exact ⟨[], c, by simp [bubblePass], .refl _, by simp⟩
  | succ n ih =>
    match front, length with
    | a :: b :: rest, length =>
      rw [List.cons_append, List.cons_append, bubblePass]
      split
      · rename_i greater
        obtain ⟨init, last, passed, perm, top⟩ := @ih (a :: rest) (by simpa using length)
        have above := top a List.mem_cons_self
        refine ⟨b :: init, last, by rw [← List.cons_append, passed]; rfl,
          (perm.cons b).trans (.swap a b rest), ?_⟩
        simp only [List.forall_mem_cons] at top ⊢
        exact ⟨above, by omega, top.2⟩
      · obtain ⟨init, last, passed, perm, top⟩ := @ih (b :: rest) (by simpa using length)
        have above := top b List.mem_cons_self
        refine ⟨a :: init, last, by rw [← List.cons_append, passed]; rfl, perm.cons a, ?_⟩
        exact List.forall_mem_cons.mpr ⟨by omega, top⟩

theorem bubblePasses (cases : List (Int × β)) {i : Nat} (le : i ≤ cases.length) :
    ∃ front back, (List.range i).foldl (fun cs i => bubblePass (cases.length - i - 1) cs) cases =
        front ++ back ∧ front.length = cases.length - i ∧ (front ++ back).Perm cases ∧
      back.Pairwise (·.1 ≤ ·.1) ∧ ∀ c ∈ front, ∀ d ∈ back, c.1 ≤ d.1 := by
  induction i with
  | zero => exact ⟨cases, [], by simp, rfl, by simp, .nil, by simp⟩
  | succ i ih =>
    obtain ⟨front, back, passes, length, perm, ordered, below⟩ := ih (by omega)
    obtain ⟨init, last, passed, perm', top⟩ :=
      bubblePass_max (show front.length = cases.length - i - 1 + 1 by omega) back
    have size := perm'.length_eq
    rw [List.length_append, List.length_singleton] at size
    have within : ∀ c ∈ init ++ [last], ∀ d ∈ back, c.1 ≤ d.1 :=
      fun c mem => below c (perm'.mem_iff.mp mem)
    refine ⟨init, last :: back, ?_, by omega, ?_, ?_, ?_⟩
    · rw [List.range_succ, List.foldl_append, passes]
      exact passed
    · rw [List.append_cons]
      exact (perm'.append_right back).trans perm
    · exact List.pairwise_cons.mpr ⟨within last (by simp), ordered⟩
    · intro c mem
      exact List.forall_mem_cons.mpr
        ⟨top c (perm'.mem_iff.mp (List.mem_append_left _ mem)), within c (by simp [mem])⟩

/-- **The bubble sort sorts** cases that are distinct. -/
theorem bubbleSort_sorts (distinct : (cases.map Prod.fst).Nodup) :
    (bubbleSort cases).Perm cases ∧ Search.Sorted (bubbleSort cases) := by
  obtain ⟨front, back, passes, length, perm, ordered, below⟩ :=
    bubblePasses cases (Nat.sub_le cases.length 1)
  have short : front.length ≤ 1 := by omega
  have weak : (front ++ back).Pairwise (·.1 ≤ ·.1) := by
    refine List.pairwise_append.mpr ⟨?_, ordered, below⟩
    match front, short with
    | [], _ => exact .nil
    | [c], _ => exact List.pairwise_singleton _ c
  have apart := List.pairwise_map.mp ((perm.map Prod.fst).nodup_iff.mpr distinct)
  rw [bubbleSort, passes]
  exact ⟨perm, (weak.and apart).imp fun h => lt_of_le_of_ne h.1 h.2⟩

/-- **The binary search** finds its case. -/
theorem follow_binarySearch (distinct : (cases.map Prod.fst).Nodup)
    (imms : ∀ c ∈ cases, IsImm32 c.1) (some : cases ≠ []) (default : β) (v : BitVec 64) :
    follow (binarySearch cases default) v (cases.length + 1) 0 =
      .to (.block ((cases.lookup (signedLow v)).getD default)) := by
  have count : 0 < cases.length := List.length_pos_iff.mpr some
  obtain ⟨perm, sorted⟩ := bubbleSort_sorts distinct
  obtain ⟨more, all, covers⟩ := searchLoop_covers (bubbleSort cases) default cases.length
    [⟨0, 0, cases.length - 1⟩] 1 [] ⟨by simp, by simp⟩ (by simp)
    (by simp [SearchContext.size]; omega)
  have covered :
      Covers (bubbleSort cases) default (binarySearch cases default) 0 0 (cases.length - 1) := by
    rw [binarySearch, all]
    exact (covers _ List.mem_cons_self).mono (emits_appendLast _)
  rw [covered.follow_eq sorted (fun c mem => imms c (perm.mem_iff.mp mem))
      (by rw [perm.length_eq]; omega) v (by omega), Nat.sub_add_cancel count, ← perm.length_eq,
    Search.segment_all, ← Search.lookup_perm perm.symm distinct]

/-! ## The whole lowering -/

/-- The cases of a switch as immediates (`getSExtValue`). -/
def caseImms {w : Nat} (cases : List (BitVec w × β)) : List (Int × β) :=
  cases.map fun c => (c.1.toInt, c.2)

/-- **What a lowered switch does**, but for a jump table: find the case of the operand's lower half,
or go to the one block there is. -/
theorem follow_lowerSwitchStmt [DecidableEq β] (evm : Bool) {w : Nat} {cases : List (BitVec w × β)}
    (distinct : ((caseImms cases).map Prod.fst).Nodup)
    (imms : ∀ c ∈ caseImms cases, IsImm32 c.1) (default : β) (v : BitVec 64) (k : Int)
    (low : (caseImms cases).lookup k = (caseImms cases).lookup (signedLow v)) :
    follow (lowerSwitchStmt evm cases default) v (cases.length + 1) 0 =
        .to (.block (((caseImms cases).lookup k).getD default)) ∨
      ∃ first rest go, caseImms cases = first :: rest ∧ Search.Consecutive (first :: rest) ∧
        follow (lowerSwitchStmt evm cases default) v (cases.length + 1) 0 =
          (exec (jumpTable w (first :: rest) default) ⟨v, none⟩).next go := by
  have single : ∀ (insts : List (Inst β)) (n : Nat), follow [(0, insts)] v (n + 1) 0 =
      (exec insts ⟨v, none⟩).next (follow [(0, insts)] v n) := fun _ _ => rfl
  have count : cases.length = (caseImms cases).length := (List.length_map _).symm
  rw [lowerSwitchStmt, low, show (cases.map fun c => (c.1.toInt, c.2)) = caseImms cases from rfl]
  by_cases allSame : (cases.all fun c => c.2 = default) = true
  · rw [if_pos allSame, single]
    have defaults : ((caseImms cases).lookup (signedLow v)).getD default = default := by
      cases found : (caseImms cases).lookup (signedLow v) with
      | none => rfl
      | some b =>
        obtain ⟨l, r, split, -⟩ := List.lookup_eq_some_iff.mp found
        have mem : (signedLow v, b) ∈ caseImms cases := by simp [split]
        obtain ⟨c, mem', same⟩ := List.mem_map.mp mem
        obtain ⟨-, rfl⟩ := Prod.mk.inj same
        simpa using List.all_eq_true.mp allSame c mem'
    rw [defaults]
    exact .inl rfl
  · rw [if_neg allSame]
    by_cases suitable : isJumpTableSuitable ((caseImms cases).map Prod.fst) = true
    · rw [if_pos suitable, single]
      have consecutive := consecutive_of_suitable suitable
      cases shape : caseImms cases with
      | nil => rw [shape] at suitable; cases suitable
      | cons first rest => exact .inr ⟨first, rest, _, rfl, shape ▸ consecutive, rfl⟩
    · rw [if_neg suitable]
      split
      · rename_i many
        have some : caseImms cases ≠ [] := by
          intro none
          rw [none] at many
          exact absurd many.2 (by simp)
        rw [count]
        exact .inl (follow_binarySearch distinct imms some default v)
      · rw [single, exec_compareChain imms]
        exact .inl rfl

section Lowering

variable {entries : List (Nat × β)}

def switchCases (entries : List (Nat × β)) : List (BitVec 64 × β) :=
  entries.map fun c => (.ofNat 64 c.1, c.2)

def immCases (entries : List (Nat × β)) : List (Int × β) := entries.map fun c => ((c.1 : Int), c.2)

theorem sorted_immCases (sorted : Search.Sorted entries) : Search.Sorted (immCases entries) := by
  apply List.pairwise_map.mpr
  exact sorted.imp fun less => Int.ofNat_lt.mpr less

theorem lookup_immCases (n : Nat) : (immCases entries).lookup (n : Int) = entries.lookup n :=
  Search.lookup_rename fun _ _ same => Int.ofNat.inj same

variable (offsets : ∀ c ∈ entries, c.1 < 2 ^ 31)
include offsets

theorem imms_switchCases :
    ((switchCases entries).map fun c => (c.1.toInt, c.2)) = immCases entries := by
  rw [switchCases, immCases, List.map_map]
  apply List.map_congr_left
  intro c mem
  have small := offsets c mem
  have whole : (BitVec.ofNat 64 c.1).toNat = c.1 := Nat.mod_eq_of_lt (by omega)
  have same : (BitVec.ofNat 64 c.1).toInt = c.1 := by
    rw [BitVec.toInt_eq_toNat_of_lt (by omega), whole]
  simp only [Function.comp_apply, same]

theorem isOffset_immCases : ∀ c ∈ immCases entries, IsOffset c.1 := by
  intro c mem
  obtain ⟨d, mem', rfl⟩ := List.mem_map.mp mem
  have small := offsets d mem'
  exact ⟨by simp, by simp; omega⟩

/-- Seen as a signed number, the lower half is a case of offsets exactly if it is one. -/
theorem lookup_signedLow (v : BitVec 64) :
    (immCases entries).lookup (signedLow v) = entries.lookup (lowHalf v) := by
  have half : (v.setWidth 32).toNat = lowHalf v := BitVec.toNat_setWidth ..
  have signed : signedLow v = if lowHalf v < 2 ^ 31 then (lowHalf v : Int)
      else (lowHalf v : Int) - 2 ^ 32 := by
    have bound : lowHalf v < 2 ^ 32 := Nat.mod_lt _ (by decide)
    rw [signedLow, BitVec.toInt_eq_toNat_cond, half]
    split <;> split <;> omega
  by_cases small : lowHalf v < 2 ^ 31
  · rw [signed, if_pos small, lookup_immCases]
  · have bound : lowHalf v < 2 ^ 32 := Nat.mod_lt _ (by decide)
    have absent : entries.lookup (lowHalf v) = none := by
      apply Search.lookup_eq_none
      intro c mem
      have := offsets c mem
      omega
    rw [signed, if_neg small, absent]
    apply Search.lookup_eq_none
    intro c mem
    have := (isOffset_immCases offsets c mem).1
    omega

variable [DecidableEq β] (sorted : Search.Sorted entries) (default : β)
include sorted

/-- **What a lowered switch of the EVM's does.** -/
theorem runSwitch_eq (v : BitVec 64) : runSwitch (switchCases entries) default v =
        .to (.block ((entries.lookup (lowHalf v)).getD default)) ∨
      (2 ^ 32 ≤ v.toNat ∧ (entries.lookup (lowHalf v)).isSome ∧ runSwitch (switchCases entries) default v = .wild) := by
  have offsets' := isOffset_immCases offsets
  have imms : caseImms (switchCases entries) = immCases entries := imms_switchCases offsets
  have low : (immCases entries).lookup (lowHalf v : Int) =
      (immCases entries).lookup (signedLow v) := by rw [lookup_immCases, lookup_signedLow offsets]
  rw [← lookup_immCases]
  rcases follow_lowerSwitchStmt true (imms ▸ (sorted_immCases sorted).distinct)
    (imms ▸ fun c mem => (offsets' c mem).imm) default v (lowHalf v) (imms ▸ low) with
    found | ⟨first, rest, go, shape, consecutive, run⟩
  · exact .inl (imms ▸ found)
  · rw [imms] at shape
    rw [shape] at offsets' ⊢
    rw [exec_jumpTable consecutive offsets'] at run
    rw [runSwitch, run]
    cases (first :: rest).lookup (lowHalf v : Int) with
    | none => exact .inl rfl
    | some b =>
      by_cases fits : v.toNat < 2 ^ 32
      · exact .inl (by rw [Option.elim_some, if_pos fits]; rfl)
      · exact .inr ⟨Nat.not_lt.mp fits, rfl, by rw [Option.elim_some, if_neg fits]; rfl⟩

/-- **A lowered switch is right** for an operand of 32 bits, and for one whose lower half is no
case. -/
theorem lowerSwitchStmt_exact {v : BitVec 64}
    (narrow : v.toNat < 2 ^ 32 ∨ entries.lookup (lowHalf v) = none) : runSwitch (switchCases entries) default v =
      .to (.block ((entries.lookup v.toNat).getD default)) := by
  have same : entries.lookup (lowHalf v) = entries.lookup v.toNat := by
    by_cases short : v.toNat < 2 ^ 32
    · rw [lowHalf, Nat.mod_eq_of_lt short]
    · rw [narrow.resolve_left short, Search.lookup_eq_none]
      intro c mem
      have := offsets c mem
      omega
  rcases runSwitch_eq offsets sorted default v with fine | ⟨wide, found, -⟩
  · rw [fine, same]
  · rw [narrow.resolve_left (by omega)] at found
    cases found

/-- **And wrong for every other**: it goes to the case of the lower half, or anywhere. -/
theorem lowerSwitchStmt_wrong {v : BitVec 64} {b : β} (found : entries.lookup (lowHalf v) = some b) :
    runSwitch (switchCases entries) default v = .to (.block b) ∨ runSwitch (switchCases entries) default v = .wild := by
  rcases runSwitch_eq offsets sorted default v with low | ⟨-, -, wild⟩
  · rw [low, found]
    exact .inl rfl
  · exact .inr wild

end Lowering

/-! ## Switches over 32 bits -/

section Narrow

variable [DecidableEq β] {first : Int × β} {rest : List (Int × β)} {narrow : List (BitVec 32 × β)}

theorem toNat_distance32 (v : BitVec 32) (k : Int) : ((v + .ofInt 32 (-k)).toNat : Int) = (v.toInt - k) % 2 ^ 32 := by
  rw [BitVec.toNat_add, BitVec.toNat_ofInt, BitVec.toInt_eq_toNat_cond]
  have width := v.isLt
  split <;> omega

omit [DecidableEq β] in
theorem exec_jumpTable32_eq (default : β) (v : BitVec 32) :
    exec (jumpTable 32 (first :: rest) default) ⟨v.setWidth 64, none⟩ =
      if (BitVec.ofNat 32 rest.length).ult (v + .ofInt 32 (-first.1)) then .to (.block default)
      else .through ((first :: rest).map Prod.snd)[(v + .ofInt 32 (-first.1)).toNat]? := by
  have halves : ∀ x : BitVec 32, (x.setWidth 64).setWidth 32 = x := by
    intro x
    rw [BitVec.setWidth_setWidth_of_le _ (by decide), BitVec.setWidth_eq]
  have index : ∀ x : BitVec 32, (x.setWidth 64).toNat = x.toNat :=
    fun x => BitVec.toNat_setWidth_of_le (by decide)
  obtain ⟨key, value⟩ := first
  by_cases zero : key = 0
  · subst zero
    simp [jumpTable, exec, halves, index, CondCode.holds]
  · simp [jumpTable, zero, addri, exec, halves, index, CondCode.holds]

omit [DecidableEq β] in
/-- **The jump table** of a switch over 32 bits. -/
theorem exec_jumpTable32 (consecutive : Search.Consecutive (first :: rest))
    (imms : ∀ c ∈ first :: rest, IsImm32 c.1) (default : β) (v : BitVec 32) :
    exec (jumpTable 32 (first :: rest) default) ⟨v.setWidth 64, none⟩ =
      .to (.block (((first :: rest).lookup v.toInt).getD default)) := by
  obtain ⟨last, atEnd⟩ : ∃ c, (first :: rest)[rest.length]? = some c :=
    ⟨_, List.getElem?_eq_getElem (Nat.lt_succ_self _)⟩
  have bound := (imms last (List.mem_of_getElem? atEnd)).2
  rw [consecutive.key atEnd] at bound
  have low := (imms first List.mem_cons_self).1
  have count : (BitVec.ofNat 32 rest.length).toNat = rest.length := Nat.mod_eq_of_lt (by omega)
  have distance := toNat_distance32 v first.1
  have least := BitVec.le_toInt v
  have most := BitVec.toInt_lt (x := v)
  rw [exec_jumpTable32_eq, Search.lookup_consecutive consecutive, BitVec.ult, count]
  generalize (v + BitVec.ofInt 32 (-first.1)).toNat = index at distance
  by_cases inside : first.1 ≤ v.toInt ∧ v.toInt ≤ first.1 + rest.length
  · have near : (v.toInt - first.1).toNat = index := by omega
    obtain ⟨c, here⟩ : ∃ c, (first :: rest)[index]? = some c :=
      ⟨_, List.getElem?_eq_getElem (by simp only [List.length_cons]; omega)⟩
    rw [if_neg (by simp only [decide_eq_true_eq]; omega), if_pos inside.1, near, List.getElem?_map,
      here]
    rfl
  · rw [if_pos (by simp only [decide_eq_true_eq]; omega)]
    split
    · rw [List.getElem?_eq_none (by simp only [List.length_cons]; omega)]
      rfl
    · rfl

theorem runSwitch32_eq (evm : Bool) (distinct : (narrow.map Prod.fst).Nodup) (default : β) (operand : BitVec 32) :
    runSwitch32 evm narrow default operand = .to (.block ((narrow.lookup operand).getD default)) := by
  have same : (caseImms narrow).lookup operand.toInt = narrow.lookup operand :=
    Search.lookup_rename fun _ _ => BitVec.eq_of_toInt_eq
  have imms : ∀ c ∈ caseImms narrow, IsImm32 c.1 := by
    intro c mem
    obtain ⟨d, -, rfl⟩ := List.mem_map.mp mem
    exact ⟨BitVec.le_toInt d.1, BitVec.toInt_lt⟩
  have distinct' : ((caseImms narrow).map Prod.fst).Nodup := by
    have keys : (caseImms narrow).map Prod.fst = (narrow.map Prod.fst).map BitVec.toInt := by
      simp [caseImms]
    rw [keys]
    exact List.Nodup.map (fun _ _ => BitVec.eq_of_toInt_eq) distinct
  rw [← same]
  rcases follow_lowerSwitchStmt evm distinct' imms default (operand.setWidth 64) operand.toInt
    (by rw [signedLow, BitVec.setWidth_setWidth_of_le _ (by decide), BitVec.setWidth_eq])
    with found | ⟨first, rest, go, shape, consecutive, run⟩
  · exact found
  · rw [shape] at imms ⊢
    rw [runSwitch32, run, exec_jumpTable32 consecutive imms]
    rfl

/-- The switch of a `br_table` (`handleBranchTable`). A level's block is named by the level. -/
def handleBranchTable (evm : Bool) (levels : List Nat) (index : BitVec 32) : Exit Nat :=
  let tableSize := levels.length - 1
  let default := levels.getD tableSize 0
  if tableSize = 0 then .to (.block default)
  else runSwitch32 evm ((List.range tableSize).map fun i => (.ofNat 32 i, levels.getD i 0)) default
    index

omit [DecidableEq β] in
theorem handleBranchTable_eq (evm : Bool) {targets : List Nat} (size : targets.length < 2 ^ 32)
    (last : Nat) (index : BitVec 32) : handleBranchTable evm (targets ++ [last]) index =
      .to (.block (targets[index.toNat]?.getD last)) := by
  have tableSize : (targets ++ [last]).length - 1 = targets.length := by simp
  have default : (targets ++ [last]).getD targets.length 0 = last := by simp
  rw [handleBranchTable, tableSize, default]
  have numbers : ∀ i ∈ List.range targets.length, (BitVec.ofNat 32 i).toNat = i := by
    intro i mem
    exact Nat.mod_eq_of_lt (Nat.lt_trans (List.mem_range.mp mem) size)
  split
  · rename_i none
    rw [List.eq_nil_of_length_eq_zero none]
    rfl
  · have keys : ((List.range targets.length).map fun i =>
        (BitVec.ofNat 32 i, (targets ++ [last]).getD i 0)).map Prod.fst =
        (List.range targets.length).map (BitVec.ofNat 32) := by simp
    have distinct : ((List.range targets.length).map (BitVec.ofNat 32)).Nodup := by
      refine List.Nodup.map_on (fun i mem j mem' same => ?_) List.nodup_range
      rw [← numbers i mem, same, numbers j mem']
    have entries : ((List.range targets.length).map fun i =>
        (BitVec.ofNat 32 i, (targets ++ [last]).getD i 0)).lookup index = targets[index.toNat]? := by
      calc _ = (((List.range targets.length).map fun i => (i, (targets ++ [last]).getD i 0)).map
            fun c => (BitVec.ofNat 32 c.1, c.2)).lookup (BitVec.ofNat 32 index.toNat) := by
              rw [List.map_map, BitVec.ofNat_toNat, BitVec.setWidth_eq]
              rfl
        _ = ((List.range targets.length).map fun i => (i, (targets ++ [last]).getD i 0)).lookup
            index.toNat := by
          refine Search.lookup_rename fun c mem same => ?_
          obtain ⟨i, mem', rfl⟩ := List.mem_map.mp mem
          rw [← numbers i mem', ← same, BitVec.ofNat_toNat, BitVec.setWidth_eq]
        _ = targets[index.toNat]? := by
          rw [Search.lookup_map_self]
          by_cases below : index.toNat < targets.length
          · simp [below, List.getElem?_append_left below]
          · simp [below]
    rw [runSwitch32_eq evm (keys ▸ distinct), entries]

/-- **Switch lowering selects the right case**: the block of the case equal to the operand, or the
default; so a `br_table` goes to the label at its index, or to the last. -/
theorem lowerSwitchStmt_selects (evm : Bool) : (∀ (cases : List (BitVec 32 × β)) (default : β) (operand : BitVec 32),
      (cases.map Prod.fst).Nodup → runSwitch32 evm cases default operand =
        .to (.block ((cases.lookup operand).getD default))) ∧
    ∀ (targets : List Nat) (last : Nat) (index : BitVec 32), targets.length < 2 ^ 32 →
      handleBranchTable evm (targets ++ [last]) index = .to (.block (targets[index.toNat]?.getD last)) :=
  ⟨fun _ default operand distinct => runSwitch32_eq evm distinct default operand,
    fun _ last index size => handleBranchTable_eq evm size last index⟩

/-- Nine cases far apart, the greatest first, are searched; four labels are a table. -/
theorem lowerSwitchStmt_selects_some :
    runSwitch32 true ((List.range 9).map fun i => (BitVec.ofNat 32 (1000 - 7 * i), i)) 99 986 = .to (.block 2) ∧
    handleBranchTable true [5, 6, 7, 8, 9] 77 = .to (.block 9) :=
  ⟨(lowerSwitchStmt_selects true).1 _ 99 986 (by decide),
    (lowerSwitchStmt_selects (β := Nat) true).2 [5, 6, 7, 8] 9 77 (by decide)⟩

end Narrow

end Dtvm.Jit
