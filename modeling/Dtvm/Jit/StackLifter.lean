import Dtvm.Jit.Lifted
import Dtvm.Jit.RuntimeStack
import Dtvm.Table.Keyed
import Dtvm.Text.Fields

/-!
# Entry states of lifted blocks

`EVMLiftedStackLifter` collects, for each lifted block, the operands that its predecessors leave on their stacks.
It numbers operands by a text made of their representation (`getOperandIdentityKey`), and if all predecessors hand
over the same number for a slot, the slot is folded: the block uses the operand of one of them.

The text determines the value of a constant, of a variable and of a single instruction
(`eq_of_getOperandIdentityKey`). Operands of four instructions all have one text, and for deferred ones an assertion
fails. A folded slot has a single value exactly if those of its operands do (`folded_single_value_iff`).
-/

namespace Dtvm.Jit

/-- The address of an instruction or a variable of the compiler. -/
structure Addr where
  value : Nat
  nonnull : value ≠ 0
deriving DecidableEq

/-- `EVMMirBuilder::Operand`, by its constructors. An instruction or variable has one type, so that of the
operand is not repeated; neither is the range, which the lifter does not read. -/
inductive Operand where
  | empty
  | instr (i : Addr)
  | var (v : Addr)
  /-- Four instructions, the low limb first. -/
  | u256Insts (components : Fin 4 → Addr)
  | u256Vars (components : Fin 4 → Addr)
  | const (limbs : Fin 4 → BitVec 64)
  | deferredBitwiseNot (base : Fin 4 → Addr)
  | deferredZeroTest (base : Fin 4 → Addr) (isNegated : Bool)
deriving DecidableEq

/-- The values of a run: what instructions and variables hold, and the words that operands of a single one
stand for. -/
structure Valuation where
  instr : Addr → BitVec 64
  var : Addr → BitVec 64
  instrWord : Addr → Word
  varWord : Addr → Word

namespace Operand

def ofComponents (x : Fin 4 → BitVec 64) : Word := ofLimbs fun k => if h : k < 4 then x ⟨k, h⟩ else 0

/-- The word that an operand stands for (`extractU256Operand`). -/
def denote (ρ : Valuation) : Operand → Word
  | .empty => 0
  | .instr i => ρ.instrWord i
  | .var v => ρ.varWord v
  | .u256Insts c => ofComponents fun k => ρ.instr (c k)
  | .u256Vars c => ofComponents fun k => ρ.var (c k)
  | .const limbs => ofComponents limbs
  | .deferredBitwiseNot c => ofComponents fun k => ~~~ρ.instr (c k)
  | .deferredZeroTest c isNegated =>
    if (ofComponents (fun k => ρ.instr (c k)) == 0) != isNegated then 1 else 0

def getInstr : Operand → Option Addr
  | .instr i => some i
  | _ => none

def getVar : Operand → Option Addr
  | .var v => some v
  | _ => none

/-- `getConstValue`, of a constant. -/
def getConstValue : Operand → Option (Fin 4 → BitVec 64)
  | .const limbs => some limbs
  | _ => none

/-- `getU256VarComponents`: addresses, of which 0 is null. It asserts that there are four components. -/
def getU256VarComponents : Operand → Option (Fin 4 → Nat)
  | .u256Vars c => some fun k => (c k).value
  | .u256Insts _ => some fun _ => 0
  | _ => none

/-- The operands of four instructions. -/
def isAnonymous : Operand → Bool
  | .u256Insts _ => true
  | _ => false

def four (x : Fin 4 → Nat) : List Nat := [x 0, x 1, x 2, x 3]

theorem four_inj {x y : Fin 4 → Nat} (eq : four x = four y) : x = y := by
  simp only [four, List.cons.injEq, and_true] at eq
  obtain ⟨h0, h1, h2, h3⟩ := eq
  funext k
  match k with
  | 0 => exact h0
  | 1 => exact h1
  | 2 => exact h2
  | 3 => exact h3

def getOperandIdentityKey (v : Operand) : Option String :=
  match v.getConstValue with
  | some limbs => some (Text.fields "const" (four fun k => (limbs k).toNat))
  | none => match v.getInstr with
    | some i => some (Text.fields "instr" [i.value])
    | none => match v.getVar with
      | some x => some (Text.fields "var" [x.value])
      | none => v.getU256VarComponents.map fun vars => Text.fields "u256vars" (four vars)

theorem getOperandIdentityKey_of_isAnonymous {v : Operand} (anonymous : v.isAnonymous = true) :
    v.getOperandIdentityKey = some (Text.fields "u256vars" [0, 0, 0, 0]) := by
  cases v with
  | u256Insts _ => rfl
  | _ => cases anonymous

def keyTag : Operand → String
  | .const _ => "const"
  | .instr _ => "instr"
  | .var _ => "var"
  | _ => "u256vars"

def keyNumbers : Operand → List Nat
  | .const limbs => four fun k => (limbs k).toNat
  | .instr i => [i.value]
  | .var v => [v.value]
  | .u256Vars c => four fun k => (c k).value
  | _ => four fun _ => 0

theorem eq_of_getOperandIdentityKey_eq_some {v : Operand} {key : String} (h : v.getOperandIdentityKey = some key) :
    key = Text.fields v.keyTag v.keyNumbers := by
  cases v <;> cases h <;> rfl

theorem keyTag_plain (v : Operand) : ':' ∉ v.keyTag.toList := by
  have plain : ':' ∉ "const".toList ∧ ':' ∉ "instr".toList ∧ ':' ∉ "var".toList ∧
      ':' ∉ "u256vars".toList := by decide
  cases v with
  | const _ => exact plain.1
  | instr _ => exact plain.2.1
  | var _ => exact plain.2.2.1
  | empty | u256Insts _ | u256Vars _ | deferredBitwiseNot _ | deferredZeroTest _ _ => exact plain.2.2.2

theorem addr_ext {a b : Addr} (eq : a.value = b.value) : a = b := by
  cases a
  cases b
  cases eq
  rfl

/-- **Two operands with one text** are the same, or have four instructions each. -/
theorem eq_of_getOperandIdentityKey {v w : Operand} {key : String} (hv : v.getOperandIdentityKey = some key)
    (hw : w.getOperandIdentityKey = some key) : v = w ∨ (v.isAnonymous = true ∧ w.isAnonymous = true) := by
  have eq := (eq_of_getOperandIdentityKey_eq_some hv).symm.trans (eq_of_getOperandIdentityKey_eq_some hw)
  obtain ⟨tags, numbers⟩ := Text.fields_inj v.keyTag_plain w.keyTag_plain eq
  -- the numbers of four variables are their addresses, and none of these is null
  have vars_null (c : Fin 4 → Addr) (null : four (fun k => (c k).value) = four fun _ => 0) : False :=
    (c 0).nonnull (congrFun (four_inj null) 0)
  cases v with
  | empty | deferredBitwiseNot _ | deferredZeroTest _ _ => cases hv
  | const l =>
    cases w with
    | const l' =>
      have limbs : four (fun k => (l k).toNat) = four fun k => (l' k).toNat := numbers
      exact .inl (congrArg const (funext fun k => BitVec.eq_of_toNat_eq (congrFun (four_inj limbs) k)))
    | _ => simp [keyTag] at tags
  | instr i =>
    cases w with
    | instr i' => exact .inl (congrArg instr (addr_ext (List.head_eq_of_cons_eq numbers)))
    | _ => simp [keyTag] at tags
  | var x =>
    cases w with
    | var x' => exact .inl (congrArg var (addr_ext (List.head_eq_of_cons_eq numbers)))
    | _ => simp [keyTag] at tags
  | u256Vars c =>
    cases w with
    | empty | deferredBitwiseNot _ | deferredZeroTest _ _ => cases hw
    | u256Vars c' =>
      have vars : four (fun k => (c k).value) = four fun k => (c' k).value := numbers
      exact .inl (congrArg u256Vars (funext fun k => addr_ext (congrFun (four_inj vars) k)))
    | u256Insts _ => exact (vars_null c numbers).elim
    | _ => simp [keyTag] at tags
  | u256Insts _ =>
    cases w with
    | empty | deferredBitwiseNot _ | deferredZeroTest _ _ => cases hw
    | u256Vars c => exact (vars_null c numbers.symm).elim
    | u256Insts _ => exact .inr ⟨rfl, rfl⟩
    | _ => simp [keyTag] at tags

end Operand

/-! ## The numbers of operands -/

structure StackValue where
  id : Nat
  value : Operand
deriving DecidableEq

/-- `ValueIds` and `NextValueId`. -/
abbrev ValueIds := Table.Numbering String

namespace ValueIds

def getOrCreateStackValueId (ids : ValueIds) (v : Operand) : Option (Nat × ValueIds) :=
  v.getOperandIdentityKey.map ids.number

def makeVirtualStackState (ids : ValueIds) : List Operand → Option (List StackValue × ValueIds)
  | [] => some ([], ids)
  | v :: values => do
    let (id, ids) ← getOrCreateStackValueId ids v
    let (slots, ids) ← makeVirtualStackState ids values
    some (⟨id, v⟩ :: slots, ids)

def Numbers (ids : ValueIds) (s : StackValue) : Prop :=
  ∃ key, s.value.getOperandIdentityKey = some key ∧ ids.ids key = some s.id

variable {ids ids' : ValueIds}

theorem Numbers.extends {s : StackValue} (h : Numbers ids s) (kept : ids.Extends ids') : Numbers ids' s := by
  obtain ⟨key, own, number⟩ := h
  exact ⟨key, own, kept _ _ number⟩

/-- What a virtual stack is: the operands under their numbers, which earlier ones keep. -/
theorem makeVirtualStackState_spec {values : List Operand} {slots : List StackValue}
    (made : makeVirtualStackState ids values = some (slots, ids')) :
    ids.Extends ids' ∧ slots.map StackValue.value = values ∧ ∀ s ∈ slots, Numbers ids' s := by
  induction values generalizing ids slots with
  | nil =>
    cases made
    exact ⟨.rfl, rfl, fun _ mem => nomatch mem⟩
  | cons v values ih =>
    simp only [makeVirtualStackState, getOrCreateStackValueId, Option.bind_eq_bind, Option.bind_eq_some_iff,
      Option.map_eq_some_iff] at made
    obtain ⟨_, ⟨key, own, rfl⟩, ⟨rest, _⟩, more, ⟨⟩⟩ := made
    obtain ⟨kept, values, numbers⟩ := ih more
    refine ⟨(ids.number_extends key).trans kept, congrArg (v :: ·) values, fun s mem => ?_⟩
    rcases List.mem_cons.mp mem with rfl | later
    · exact Numbers.extends (s := ⟨_, v⟩) ⟨key, own, ids.ids_number key⟩ kept
    · exact numbers s later

variable {s s' : StackValue} (h : Numbers ids s)

include h

/-- Values with one number are the same, or have four instructions each. -/
theorem Numbers.eq (h' : Numbers ids s') (same : s.id = s'.id) :
    s.value = s'.value ∨ (s.value.isAnonymous = true ∧ s'.value.isAnonymous = true) := by
  obtain ⟨key, own, number⟩ := h
  obtain ⟨key', own', number'⟩ := h'
  rw [same] at number
  exact Operand.eq_of_getOperandIdentityKey own (ids.inj number number' ▸ own')

theorem Numbers.id_eq (h' : Numbers ids s')
    (anonymous : s.value.isAnonymous = true) (anonymous' : s'.value.isAnonymous = true) : s.id = s'.id := by
  obtain ⟨key, own, number⟩ := h
  obtain ⟨key', own', number'⟩ := h'
  rw [Operand.getOperandIdentityKey_of_isAnonymous anonymous] at own
  rw [Operand.getOperandIdentityKey_of_isAnonymous anonymous'] at own'
  cases own
  cases own'
  exact Option.some.inj (number.symm.trans number')

end ValueIds

/-! ## Slots with several predecessors -/

/-- `PendingPhi::ResolutionKind`. -/
inductive Resolution where
  | pending | folded | requiresMaterialization
deriving DecidableEq

structure PendingPhi where
  slotIndex : Nat
  incomingValues : List (Nat × StackValue) := []
  incomingPhiValues : List (Nat × Operand) := []
  resolution : Resolution := .pending
  isComplete : Bool := false
  foldedValueId : Nat := 0

namespace PendingPhi

def updatePendingPhi (expectedIncomingCount : Nat) (phi : PendingPhi) : PendingPhi :=
  let isComplete :=
    decide (0 < expectedIncomingCount) && decide (expectedIncomingCount ≤ phi.incomingValues.length)
  let phi := { phi with isComplete := isComplete, foldedValueId := 0 }
  if isComplete = false then { phi with resolution := .pending }
  else match phi.incomingValues with
    | [] => phi
    | (_, first) :: others =>
      if others.all fun e => e.2.id == first.id
        then { phi with resolution := .folded, foldedValueId := first.id }
        else { phi with resolution := .requiresMaterialization }

def receive (prepare : Operand → Operand) (expectedIncomingCount predBlockPC : Nat) (s : StackValue)
    (phi : PendingPhi) : PendingPhi :=
  updatePendingPhi expectedIncomingCount
    { phi with
      incomingValues := Table.assign predBlockPC s phi.incomingValues
      incomingPhiValues := Table.assign predBlockPC (prepare s.value) phi.incomingPhiValues }

@[simp] theorem updatePendingPhi_incomingValues (n : Nat) (phi : PendingPhi) :
    (updatePendingPhi n phi).incomingValues = phi.incomingValues := by
  simp only [updatePendingPhi]
  split
  · rfl
  · split
    · rfl
    · split <;> rfl

/-- What the resolution of a slot says about the values handed over so far. -/
structure Settled (n : Nat) (phi : PendingPhi) : Prop where
  complete : phi.isComplete = true ↔ 0 < n ∧ n ≤ phi.incomingValues.length
  folded : phi.resolution = .folded ↔ phi.isComplete = true ∧
    ∀ e ∈ phi.incomingValues, ∀ e' ∈ phi.incomingValues, e.2.id = e'.2.id

theorem initial_settled (n i : Nat) : Settled n { slotIndex := i } where
  complete := ⟨fun h => (nomatch h), fun ⟨pos, le⟩ => absurd pos (Nat.not_lt.mpr le)⟩
  folded := ⟨fun h => (nomatch h), fun h => (nomatch h.1)⟩

theorem all_id_iff {first : Nat × StackValue} {others : List (Nat × StackValue)} :
    (others.all fun e => e.2.id == first.2.id) = true ↔
      ∀ e ∈ first :: others, ∀ e' ∈ first :: others, e.2.id = e'.2.id := by
  rw [List.all_eq_true]
  constructor
  · intro all
    have first_id : ∀ e ∈ first :: others, e.2.id = first.2.id := by
      intro e mem
      rcases List.mem_cons.mp mem with rfl | mem
      · rfl
      · exact eq_of_beq (all e mem)
    exact fun e mem e' mem' => (first_id e mem).trans (first_id e' mem').symm
  · intro same e mem
    exact beq_iff_eq.mpr (same e (List.mem_cons_of_mem _ mem) first List.mem_cons_self)

theorem updatePendingPhi_settled (n : Nat) (phi : PendingPhi) : Settled n (updatePendingPhi n phi) := by
  simp only [updatePendingPhi]
  split
  · next incomplete =>
    refine ⟨?_, fun h => (nomatch h), fun h => ?_⟩
    · rw [Bool.and_eq_true, decide_eq_true_eq, decide_eq_true_eq]
    · exact absurd (incomplete.symm.trans h.1) Bool.noConfusion
  · next complete =>
    rw [Bool.not_eq_false] at complete
    have bounds := complete
    rw [Bool.and_eq_true, decide_eq_true_eq, decide_eq_true_eq] at bounds
    split
    · next none =>
      rw [none] at bounds
      exact absurd bounds.1 (Nat.not_lt.mpr bounds.2)
    · next pc first others values =>
      split
      · next all =>
        refine ⟨⟨fun _ => bounds, fun _ => complete⟩, fun _ => ⟨complete, ?_⟩, fun _ => rfl⟩
        show ∀ e ∈ phi.incomingValues, _
        rw [values]
        exact all_id_iff.mp all
      · next other =>
        refine ⟨⟨fun _ => bounds, fun _ => complete⟩, fun h => (nomatch h), fun ⟨_, same⟩ => ?_⟩
        dsimp only at same
        rw [values] at same
        exact absurd (all_id_iff.mpr same) other

def foldedOperand (phi : PendingPhi) : Option Operand :=
  if phi.resolution = .folded ∧ phi.isComplete = true
    then phi.incomingValues.head?.map fun e => e.2.value
    else none

end PendingPhi

/-! ## The lifter -/

structure BlockEntryState where
  entryDepth : Nat := 0
  entryOperands : List Operand := []
  mergeOperands : List Operand := []
  incomingStates : List (Nat × List StackValue) := []
  resolvedEntryState : List StackValue := []
  pendingPhis : List PendingPhi := []
  predecessorOrder : List Nat := []
  expectedIncomingCount : Nat := 0

/-- The state of `EVMLiftedStackLifter`. -/
structure StackLifter where
  blockEntryStates : Nat → Option BlockEntryState
  valueIds : ValueIds

/-- What the lifter asks the builder for: the four variables of a word of a block's entry stack, and the operand
that stands for a value in a phi. -/
structure Builder where
  createStackEntryOperand : (blockPC depth : Nat) → Fin 4 → Addr
  prepareStackPhiIncoming : Operand → Operand

namespace StackLifter

variable (builder : Builder)

open Analyzer in
/-- The entry state that `initialize` sets up for a block, before the entry operands get their numbers. -/
def initializeBlock (analysis : Analysis) (info : BlockInfo) : BlockEntryState :=
  let predecessorOrder :=
    potentialEntryPredecessors analysis.dynamicJumpRegions analysis.blockInfos info
  let entryDepth := (max info.fullEntryStateDepth 0).toNat
  let merged := decide (0 < info.fullEntryStateDepth) && info.requiresEntryMergeState
  { entryDepth, predecessorOrder
    entryOperands := (List.range entryDepth).map fun i => .u256Vars (builder.createStackEntryOperand info.entryPC i)
    expectedIncomingCount := predecessorOrder.length
    mergeOperands := if merged then List.replicate entryDepth .empty else []
    pendingPhis := if merged then (List.range entryDepth).map fun i => { slotIndex := i } else [] }

/-- A block gets a state, and operands may have got numbers. -/
def setBlock (blockPC : Nat) (state : BlockEntryState) (ids : ValueIds) (lifter : StackLifter) :
    StackLifter :=
  ⟨Function.update lifter.blockEntryStates blockPC (some state), ids⟩

open Analyzer in
/-- The body of the loop of `initialize`. -/
def initializeStep (analysis : Analysis) (lifter : StackLifter) (info : BlockInfo) : Option StackLifter :=
  if info.canLiftStack = false then some lifter
  else do
    let state := initializeBlock builder analysis info
    let (slots, ids) ← lifter.valueIds.makeVirtualStackState state.entryOperands
    some (setBlock info.entryPC { state with resolvedEntryState := slots } ids lifter)

open Analyzer in
/-- `initialize`. -/
def initializeBlocks (analysis : Analysis) : Option StackLifter :=
  analysis.blockInfos.foldlM (initializeStep builder analysis) ⟨fun _ => none, .start 1⟩

/-- The state of a block after a predecessor has handed over its stack. -/
def receive (predBlockPC : Nat) (slots : List StackValue) (state : BlockEntryState) : BlockEntryState :=
  { state with
    incomingStates := Table.assign predBlockPC slots state.incomingStates
    resolvedEntryState := slots
    pendingPhis := state.pendingPhis.mapIdx fun i phi => match slots[i]? with
      | some s =>
        phi.receive builder.prepareStackPhiIncoming state.expectedIncomingCount predBlockPC s
      | none => phi }

/-- `assignEntryState`, but for the code that it emits. A stack of another depth fails an assertion, and so does an
operand that has no text. -/
def assignEntryState (predBlockPC blockPC : Nat) (values : List Operand) (lifter : StackLifter) :
    Option StackLifter :=
  match lifter.blockEntryStates blockPC with
  | none => some lifter
  | some state =>
    if state.entryDepth = values.length then do
      let (slots, ids) ← lifter.valueIds.makeVirtualStackState values
      some (setBlock blockPC (receive builder predBlockPC slots state) ids lifter)
    else none

def assignMergeOperand (blockPC slotIndex : Nat) (mergeOperand : Operand) (lifter : StackLifter) :
    Option StackLifter :=
  match lifter.blockEntryStates blockPC with
  | none => some lifter
  | some state =>
    if slotIndex < state.mergeOperands.length then
      some (setBlock blockPC
        { state with mergeOperands := state.mergeOperands.set slotIndex mergeOperand }
        lifter.valueIds lifter)
    else none

inductive Call where
  | assignEntryState (predBlockPC blockPC : Nat) (values : List Operand)
  | assignMergeOperand (blockPC slotIndex : Nat) (mergeOperand : Operand)

def call (lifter : StackLifter) : Call → Option StackLifter
  | .assignEntryState pred block values => assignEntryState builder pred block values lifter
  | .assignMergeOperand block slot operand => assignMergeOperand block slot operand lifter

/-- The operand that `getLogicalEntryState` puts into a slot. -/
def slotOperand (state : BlockEntryState) (phi : PendingPhi) : Option Operand :=
  match state.mergeOperands[phi.slotIndex]? with
  | some operand => if operand = .empty then phi.foldedOperand else some operand
  | none => phi.foldedOperand

def getLogicalEntryState (blockPC : Nat) (lifter : StackLifter) : List Operand :=
  match lifter.blockEntryStates blockPC with
  | none => []
  | some state =>
    let logical := if state.entryOperands.isEmpty then state.resolvedEntryState.map StackValue.value
      else state.entryOperands
    state.pendingPhis.foldl (fun logical phi => match slotOperand state phi with
      | some operand => logical.set phi.slotIndex operand
      | none => logical) logical

def afterCalls (analysis : Analyzer.Analysis) (calls : List Call) : Option StackLifter :=
  (initializeBlocks builder analysis).bind fun lifter => calls.foldlM (call builder) lifter

def hand (blockPC slot : Nat) (handed : List (Nat × Operand)) : Call → List (Nat × Operand)
  | .assignEntryState pred block values =>
    if block = blockPC then (values[slot]?).elim handed fun v => Table.assign pred v handed else handed
  | .assignMergeOperand .. => handed

/-- The operands that the predecessors of a block have handed over for a slot: the last one of each. -/
def handed (blockPC slot : Nat) (calls : List Call) : List (Nat × Operand) :=
  calls.foldl (hand blockPC slot) []

/-! ## What the lifter keeps -/

/-- A slot of a block after some calls: it has the operands handed over so far, under their numbers, and
its resolution is up to date. -/
structure SlotKept (ids : ValueIds) (expected : Nat) (given : List (Nat × Operand)) (phi : PendingPhi) :
    Prop where
  settled : phi.Settled expected
  numbers : ∀ e ∈ phi.incomingValues, ids.Numbers e.2
  values : phi.incomingValues.map (Prod.map id StackValue.value) = given

def Kept (calls : List Call) (lifter : StackLifter) : Prop :=
  ∀ block state, lifter.blockEntryStates block = some state → ∀ slot phi,
    state.pendingPhis[slot]? = some phi →
      SlotKept lifter.valueIds state.expectedIncomingCount (handed block slot calls) phi

variable {ids : ValueIds} {expected : Nat} {given : List (Nat × Operand)} {phi : PendingPhi} {calls : List Call}
  {lifter : StackLifter}

theorem SlotKept.extends {ids' : ValueIds} (h : SlotKept ids expected given phi) (kept : ids.Extends ids') :
    SlotKept ids' expected given phi :=
  ⟨h.settled, fun e mem => (h.numbers e mem).extends kept, h.values⟩

theorem SlotKept.receive (h : SlotKept ids expected given phi) (prepare : Operand → Operand) (pred : Nat)
    {s : StackValue} (numbered : ids.Numbers s) :
    SlotKept ids expected (Table.assign pred s.value given) (phi.receive prepare expected pred s) where
  settled := PendingPhi.updatePendingPhi_settled _ _
  numbers e mem := by
    rw [PendingPhi.receive, PendingPhi.updatePendingPhi_incomingValues] at mem
    rcases Table.eq_or_mem_of_mem_assign mem with rfl | old
    · exact numbered
    · exact h.numbers e old
  values := by
    rw [PendingPhi.receive, PendingPhi.updatePendingPhi_incomingValues, Table.map_assign, h.values]

theorem handed_concat (block slot : Nat) (calls : List Call) (c : Call) :
    handed block slot (calls ++ [c]) = hand block slot (handed block slot calls) c :=
  List.foldl_concat ..

theorem Kept.setBlock {calls' : List Call} (kept : Kept calls lifter)
    {blockPC : Nat} {state : BlockEntryState} (grows : lifter.valueIds.Extends ids)
    (others : ∀ block, block ≠ blockPC → ∀ slot, handed block slot calls' = handed block slot calls)
    (here : ∀ slot phi, state.pendingPhis[slot]? = some phi →
      SlotKept ids state.expectedIncomingCount (handed blockPC slot calls') phi) :
    Kept calls' (lifter.setBlock blockPC state ids) := by
  intro block found has slot phi at_slot
  simp only [StackLifter.setBlock] at has
  by_cases same : block = blockPC
  · subst same
    rw [Function.update_self, Option.some.injEq] at has
    subst has
    exact here slot phi at_slot
  · rw [Function.update_of_ne same] at has
    rw [others block same]
    exact (kept block found has slot phi at_slot).extends grows

theorem initializeBlock_kept (analysis : Analyzer.Analysis) (info : Analyzer.BlockInfo) {slot : Nat}
    (at_slot : (initializeBlock builder analysis info).pendingPhis[slot]? = some phi) :
    SlotKept ids (initializeBlock builder analysis info).expectedIncomingCount [] phi := by
  simp only [initializeBlock] at at_slot
  split at at_slot
  · rw [List.getElem?_map, Option.map_eq_some_iff] at at_slot
    obtain ⟨i, -, rfl⟩ := at_slot
    exact ⟨PendingPhi.initial_settled _ i, fun _ mem => (nomatch mem), rfl⟩
  · cases at_slot

theorem initializeBlocks_kept {analysis : Analyzer.Analysis} (run : initializeBlocks builder analysis = some lifter) :
    Kept [] lifter := by
  have all (infos : List Analyzer.BlockInfo) (before : StackLifter) (kept : Kept [] before)
      (run : infos.foldlM (initializeStep builder analysis) before = some lifter) : Kept [] lifter := by
    induction infos generalizing before with
    | nil =>
      cases run
      exact kept
    | cons info infos ih =>
      rw [List.foldlM_cons] at run
      obtain ⟨next, step, rest⟩ := Option.bind_eq_some_iff.mp run
      refine ih next ?_ rest
      rw [initializeStep] at step
      split at step
      · cases step
        exact kept
      · obtain ⟨⟨slots, ids⟩, made, ⟨⟩⟩ := Option.bind_eq_some_iff.mp step
        exact kept.setBlock (ValueIds.makeVirtualStackState_spec made).1 (fun _ _ _ => rfl)
          fun _ _ at_slot => initializeBlock_kept builder analysis info at_slot
  exact all _ ⟨fun _ => none, .start 1⟩ (fun _ _ has => nomatch has) run

theorem receive_kept (kept : Kept calls lifter)
    {block : Nat} {state : BlockEntryState} (has : lifter.blockEntryStates block = some state)
    (pred : Nat) {values : List Operand} {slots : List StackValue}
    (made : lifter.valueIds.makeVirtualStackState values = some (slots, ids)) {slot : Nat}
    (at_slot : (receive builder pred slots state).pendingPhis[slot]? = some phi) :
    SlotKept ids state.expectedIncomingCount
      ((values[slot]?).elim (handed block slot calls) fun v => Table.assign pred v (handed block slot calls)) phi := by
  simp only [receive, List.getElem?_mapIdx, Option.map_eq_some_iff] at at_slot
  obtain ⟨old, was, rfl⟩ := at_slot
  obtain ⟨grows, rfl, numbers⟩ := ValueIds.makeVirtualStackState_spec made
  have before := (kept block state has slot old was).extends grows
  rw [List.getElem?_map]
  split
  · next s found =>
    rw [found]
    exact before.receive _ pred (numbers s (List.mem_of_getElem? found))
  · next none =>
    rw [none]
    exact before

theorem call_kept {lifter' : StackLifter} (kept : Kept calls lifter) {c : Call}
    (step : call builder lifter c = some lifter') : Kept (calls ++ [c]) lifter' := by
  cases c with
  | assignMergeOperand target index operand =>
    have same (block slot : Nat) :
        handed block slot (calls ++ [.assignMergeOperand target index operand]) =
          handed block slot calls := handed_concat ..
    simp only [call, assignMergeOperand] at step
    split at step
    · cases step
      intro block state has slot
      rw [same]
      exact kept block state has slot
    · next old was =>
      split at step
      · cases step
        refine kept.setBlock .rfl (fun block _ slot => same block slot) fun slot phi at_slot => ?_
        rw [same]
        exact kept target old was slot phi at_slot
      · cases step
  | assignEntryState pred target values =>
    have other {block : Nat} (ne : block ≠ target) (slot : Nat) :
        handed block slot (calls ++ [.assignEntryState pred target values]) = handed block slot calls := by
      rw [handed_concat, hand, if_neg (Ne.symm ne)]
    simp only [call, assignEntryState] at step
    split at step
    · next none =>
      cases step
      intro block state has slot
      rw [other (by rintro rfl; rw [none] at has; cases has)]
      exact kept block state has slot
    · next old was =>
      split at step
      · obtain ⟨⟨slots, ids⟩, made, ⟨⟩⟩ := Option.bind_eq_some_iff.mp step
        refine kept.setBlock (ValueIds.makeVirtualStackState_spec made).1 (fun _ => other)
          fun slot phi at_slot => ?_
        rw [handed_concat, hand, if_pos rfl]
        exact receive_kept builder kept was pred made at_slot
      · cases step

/-- **Every sequence of calls keeps the slots.** -/
theorem afterCalls_kept {analysis : Analyzer.Analysis}
    (run : afterCalls builder analysis calls = some lifter) : Kept calls lifter := by
  rw [afterCalls, Option.bind_eq_some_iff] at run
  obtain ⟨first, start, run⟩ := run
  induction calls using List.reverseRecOn generalizing lifter with
  | nil =>
    cases run
    exact initializeBlocks_kept builder start
  | append_singleton calls c ih =>
    rw [List.foldlM_append] at run
    obtain ⟨before, ran, last⟩ := Option.bind_eq_some_iff.mp run
    rw [List.foldlM_cons] at last
    obtain ⟨after, step, done⟩ := Option.bind_eq_some_iff.mp last
    cases done
    exact call_kept builder (ih ran) step

/-! ## Folded slots -/

def SameValue (ρ : Valuation) (given : List (Nat × Operand)) : Prop :=
  ∀ e ∈ given, ∀ e' ∈ given, e.2.denote ρ = e'.2.denote ρ

/-- All of them have four instructions. -/
def AllAnonymous (given : List (Nat × Operand)) : Prop := ∀ e ∈ given, e.2.isAnonymous = true

theorem SlotKept.allAnonymous (h : SlotKept ids expected given phi) (folded : phi.resolution = .folded)
    {e : Nat × StackValue} (mem : e ∈ phi.incomingValues) (anonymous : e.2.value.isAnonymous = true) :
    AllAnonymous given := by
  intro g inside
  rw [← h.values] at inside
  obtain ⟨x, member, rfl⟩ := List.mem_map.mp inside
  have same := (h.settled.folded.mp folded).2 e mem x member
  rcases (h.numbers e mem).eq (h.numbers x member) same with eq | both
  · rwa [eq] at anonymous
  · exact both.2

theorem SlotKept.single_value_iff (h : SlotKept ids expected given phi) (ρ : Valuation) :
    (phi.resolution = .folded → SameValue ρ given) ↔
      (0 < expected → expected ≤ given.length → AllAnonymous given → SameValue ρ given) := by
  constructor
  · intro single pos all anonymous
    apply single
    have member {e : Nat × StackValue} (mem : e ∈ phi.incomingValues) : e.2.value.isAnonymous = true :=
      anonymous (Prod.map id StackValue.value e) (h.values ▸ List.mem_map_of_mem mem)
    refine h.settled.folded.mpr ⟨h.settled.complete.mpr ⟨pos, ?_⟩, fun e mem e' mem' => ?_⟩
    · rwa [← h.values, List.length_map] at all
    · exact (h.numbers e mem).id_eq (h.numbers e' mem') (member mem) (member mem')
  · intro single folded g inside g' inside'
    obtain ⟨complete, same⟩ := h.settled.folded.mp folded
    obtain ⟨pos, all⟩ := h.settled.complete.mp complete
    have length : given.length = phi.incomingValues.length := by rw [← h.values, List.length_map]
    obtain ⟨e, mem, rfl⟩ := List.mem_map.mp (h.values ▸ inside)
    obtain ⟨e', mem', rfl⟩ := List.mem_map.mp (h.values ▸ inside')
    rcases (h.numbers e mem).eq (h.numbers e' mem') (same e mem e' mem') with eq | anonymous
    · exact congrArg (Operand.denote ρ) eq
    · exact single pos (length ▸ all) (h.allAnonymous folded mem anonymous.1) _ inside _ inside'

/-- **When folding is right.** After any sequence of calls, two operands with one number stand for one
word exactly if this is so when both have four instructions. A slot for which all predecessors have handed over their
operands is folded only if they all stand for one word, exactly if this is so when all have four instructions. -/
theorem folded_single_value_iff {analysis : Analyzer.Analysis} {calls : List Call} {lifter : StackLifter}
    (run : afterCalls builder analysis calls = some lifter) (ρ : Valuation) :
    (∀ s s', lifter.valueIds.Numbers s → lifter.valueIds.Numbers s' →
      ((s.id = s'.id → s.value.denote ρ = s'.value.denote ρ) ↔
        (s.value.isAnonymous = true → s'.value.isAnonymous = true → s.value.denote ρ = s'.value.denote ρ))) ∧
    ∀ block state, lifter.blockEntryStates block = some state → ∀ slot phi, state.pendingPhis[slot]? = some phi →
        ((phi.resolution = .folded → SameValue ρ (handed block slot calls)) ↔ (0 < state.expectedIncomingCount →
            state.expectedIncomingCount ≤ (handed block slot calls).length →
            AllAnonymous (handed block slot calls) → SameValue ρ (handed block slot calls))) := by
  refine ⟨fun s s' has has' => ⟨fun single anonymous anonymous' => ?_, fun single same => ?_⟩, ?_⟩
  · exact single (has.id_eq has' anonymous anonymous')
  · rcases has.eq has' same with eq | ⟨anonymous, anonymous'⟩
    · exact congrArg (Operand.denote ρ) eq
    · exact single anonymous anonymous'
  · intro block state has slot phi at_slot
    exact (afterCalls_kept builder run block state has slot phi at_slot).single_value_iff ρ

/-- Two blocks that each leave one value for the block at 14: `CALLDATASIZE, PUSH1 10, JUMPI`, then
`CALLDATASIZE, CALLDATASIZE, ADD, PUSH1 14, JUMP` and `JUMPDEST, CALLDATASIZE, CALLDATASIZE, SUB`, then
`JUMPDEST, POP, STOP`. -/
def forkAndJoin : Bytecode :=
  ⟨[0x36, 0x60, 0x0a, 0x57, 0x36, 0x36, 0x01, 0x60, 0x0e, 0x56, 0x5b, 0x36, 0x36, 0x03, 0x5b, 0x50, 0x00],
    by decide⟩

/-- A builder that uses one variable for every entry slot and has nothing to prepare for a phi. -/
def plainBuilder : Builder where
  createStackEntryOperand _ _ _ := ⟨1, by decide⟩
  prepareStackPhiIncoming v := v

def joined (v w : Operand) : List Call := [.assignEntryState 4 14 [v], .assignEntryState 10 14 [w]]

def joinAnalysis : Analyzer.Analysis :=
  (Analyzer.analyze Analyzer.freeTables Analyzer.bareEnv.rev forkAndJoin.bytes 10).getD ⟨[], []⟩

def joinedLifter (v w : Operand) : StackLifter :=
  (afterCalls plainBuilder joinAnalysis (joined v w)).getD ⟨fun _ => none, .start 1⟩

def joinedState (v w : Operand) : BlockEntryState := ((joinedLifter v w).blockEntryStates 14).getD {}

def consecutive (first : Nat) : Operand := .u256Insts fun k => ⟨first + k + 1, Nat.succ_ne_zero _⟩

/-- Every instruction and variable has its address for a value. -/
def byAddress : Valuation where
  instr a := BitVec.ofNat 64 a.value
  var a := BitVec.ofNat 64 a.value
  instrWord a := BitVec.ofNat 256 a.value
  varWord a := BitVec.ofNat 256 a.value

theorem eq_some_getD {α : Type} {o : Option α} (isSome : o.isSome = true) (a : α) : o = some (o.getD a) := by
  cases o with
  | none => cases isSome
  | some _ => rfl

/-- Two blocks hand over the constant 5. -/
theorem folded_single_value_constant :
    afterCalls plainBuilder joinAnalysis (joined (.const fun _ => 5) (.const fun _ => 5)) =
      some (joinedLifter (.const fun _ => 5) (.const fun _ => 5)) ∧
    ∃ phi, (joinedState (.const fun _ => 5) (.const fun _ => 5)).pendingPhis[0]? = some phi ∧ phi.resolution = .folded ∧
      SameValue byAddress (handed 14 0 (joined (.const fun _ => 5) (.const fun _ => 5))) := by
  have run : afterCalls plainBuilder joinAnalysis (joined (.const fun _ => 5) (.const fun _ => 5)) =
      some (joinedLifter (.const fun _ => 5) (.const fun _ => 5)) := eq_some_getD (by decide +kernel) _
  have state : (joinedLifter (.const fun _ => 5) (.const fun _ => 5)).blockEntryStates 14 =
      some (joinedState (.const fun _ => 5) (.const fun _ => 5)) := eq_some_getD (by decide +kernel) _
  have slot : (joinedState (.const fun _ => 5) (.const fun _ => 5)).pendingPhis[0]? = some _ :=
    eq_some_getD (by decide +kernel) { slotIndex := 0 }
  refine ⟨run, _, slot, by decide +kernel, ?_⟩
  refine ((folded_single_value_iff plainBuilder run byAddress).2 14 _ state 0 _ slot).mpr ?_
    (by decide +kernel)
  intro _ _ anonymous
  exact absurd (anonymous (4, .const fun _ => 5) (by decide)) (by decide)

/-- Two blocks hand over four instructions each. The slot is folded, and the block uses those of the first
one, which have another value than those of the second. -/
theorem folded_differs :
    Analyzer.analyze Analyzer.freeTables Analyzer.bareEnv.rev forkAndJoin.bytes 10 = some joinAnalysis ∧
    afterCalls plainBuilder joinAnalysis (joined (consecutive 0) (consecutive 4)) =
      some (joinedLifter (consecutive 0) (consecutive 4)) ∧
    (joinedLifter (consecutive 0) (consecutive 4)).blockEntryStates 14 =
      some (joinedState (consecutive 0) (consecutive 4)) ∧
    (∃ phi, (joinedState (consecutive 0) (consecutive 4)).pendingPhis[0]? = some phi ∧ phi.resolution = .folded) ∧
    (joinedLifter (consecutive 0) (consecutive 4)).getLogicalEntryState 14 = [consecutive 0] ∧
    ¬ SameValue byAddress (handed 14 0 (joined (consecutive 0) (consecutive 4))) := by
  refine ⟨by decide +kernel, eq_some_getD (by decide +kernel) _, eq_some_getD (by decide +kernel) _,
    ⟨_, eq_some_getD (by decide +kernel) { slotIndex := 0 }, by decide +kernel⟩, by decide +kernel, ?_⟩
  intro same
  exact absurd (same (4, consecutive 0) (by decide) (10, consecutive 4) (by decide)) (by decide +kernel)

end StackLifter

end Dtvm.Jit
