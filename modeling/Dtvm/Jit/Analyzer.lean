import Mathlib
import Dtvm.Evm.StackShape
import Dtvm.Jit.JumpTable

/-!
# The analyzer of compiled code

`EVMAnalyzer` cuts a code into blocks, follows the depth of the operand stack along the edges it knows, and
decides which blocks the compiler may enter with the stack in variables (`CanLiftStack`). Its phases (`analyze`):

* `buildJumpDestRuns`: a run of adjacent `JUMPDEST`s is named by its last one;
* `buildBlocks`, with `analyzeBlockBody`: the blocks, their successors and their effect on the stack;
* `resolveEntryDepths`: the depth at entry. A block that is reached with two depths, and all that can be reached
  from it, has none;
* `markDynamicJumpTargetCandidates`, `resolveDynamicJumpTargetEntryDepths`: the same for the targets of jumps
  that are computed at run time, grouped by the region after the jump;
* `finalizeEntryShapeMetadata`, `finalizeLiftability`: the decision.

The blocks are a list in the order of the source's map. Counting for `JITSuitabilityResult` is left out.
`HasUnknownDynamicJump` is set whenever a block gets `HasDynamicJump`, so it is read off the blocks.
-/

namespace Dtvm.Jit

/-- `evmc_get_instruction_metrics_table` with its stack columns. -/
structure StackTables extends InstructionTables where
  stackHeightRequired : Revision → UInt8 → Int
  stackHeightChange : Revision → UInt8 → Int
  /-- Every revision has `PUSH1` to `PUSH32`. -/
  push_defined : ∀ rev b n, Opcode.ofByte b = .push n → defined rev b = true
  /-- The columns are the effect of the opcode. -/
  documented : ∀ rev b, defined rev b = true → Opcode.ofByte b ≠ .unknown →
    stackHeightRequired rev b = (Opcode.ofByte b).stackOp.need ∧
      stackHeightChange rev b = (Opcode.ofByte b).stackOp.gives - (Opcode.ofByte b).stackOp.need

namespace Analyzer

/-! ## Runs of jump destinations -/

/-- The loop of `buildJumpDestRuns`. -/
def jumpDestRunsLoop (code : Bytes) : Nat → Nat → List (Nat × Nat) → List (Nat × Nat)
  | 0, _, pcs => pcs
  | fuel + 1, pc, pcs =>
    if pc < code.length then
      if opAt code pc = .jumpdest then
        let runEnd := rangeEnd code code.length pc
        jumpDestRunsLoop code fuel (runEnd + 1)
          (pcs ++ (List.range' pc (runEnd + 1 - pc)).map fun p => (p, runEnd))
      else jumpDestRunsLoop code fuel (pc + (opAt code pc).len) pcs
    else pcs

/-- `buildJumpDestRuns`: `JumpDestCanonicalPCs`. -/
def buildJumpDestRuns (code : Bytes) : List (Nat × Nat) := jumpDestRunsLoop code code.length 0 []

def hasCanonicalJumpDest (code : Bytes) (pc : Nat) : Bool := ((buildJumpDestRuns code).lookup pc).isSome

def getCanonicalJumpDestPC (code : Bytes) (pc : Nat) : Nat := ((buildJumpDestRuns code).lookup pc).getD pc

/-! ## What is known of a value -/

structure AbstractValue where
  knownConst : Bool := false
  fitsU64 : Bool := false
  low : Nat := 0
deriving DecidableEq, Repr

def AbstractValue.unknown : AbstractValue := {}

/-- The `readPushByte` of `constFromPush`. -/
def readPushByte (code : Bytes) (start size i : Nat) : UInt8 :=
  if i < min size (code.length - start) then byteAt code (start + i) else 0

def AbstractValue.constFromPush (code : Bytes) (start size : Nat) : AbstractValue where
  knownConst := true
  fitsU64 := (List.range (size - 8)).all fun i => readPushByte code start size i == 0
  low := (List.range' (size - 8) (size - (size - 8))).foldl
    (fun low i => (low * 256 + (readPushByte code start size i).toNat) % 2 ^ 64) 0

/-! ## Blocks -/

/-- The part of `BlockInfo` that `buildBlocks` computes. -/
structure BlockBody where
  entryPC : Nat
  bodyStartPC : Nat
  bodyEndPC : Nat
  isJumpDest : Bool
  maxStackHeight : Int := 0
  minStackHeight : Int := 0
  minPopHeight : Int := 0
  stackHeightDiff : Int := 0
  entryStackDepth : Int := 0
  hasUndefinedInstr : Bool := false
  hasDynamicJump : Bool := false
  hasConditionalJump : Bool := false
  hasConstantJump : Bool := false
  constantJumpTargetPC : Nat := 0
  dynamicJumpTargetRegionEntryPC : Nat := 0
  successors : List Nat := []
deriving DecidableEq, Repr

structure BlockInfo extends BlockBody where
  predecessors : List Nat := []
  resolvedEntryStackDepth : Int := -1
  resolvedExitStackDepth : Int := -1
  fullEntryStateDepth : Int := -1
  hiddenLiveInPrefixDepth : Int := 0
  hasInconsistentEntryDepth : Bool := false
  isEntryStateCompatible : Bool := false
  hasHiddenLiveInPrefix : Bool := false
  requiresEntryMergeState : Bool := false
  hasDeferredEntryMerge : Bool := false
  isDynamicJumpTargetCandidate : Bool := false
  hasCompatibleDynamicJumpTargetShape : Bool := false
  canLiftStack : Bool := false
  dynamicJumpTargetRegions : List Nat := []
deriving DecidableEq, Repr

/-- The variables of the loop of `analyzeBlockBody`. The stack has its top first. -/
structure Scan where
  scanPC : Nat
  stack : List AbstractValue := []
  entryDepth : Nat := 0
  maxStackHeight : Int := 0
  minStackHeight : Int := 0
  minPopHeight : Int := 0
  stackHeightDiff : Int := 0
deriving DecidableEq, Repr

namespace Scan

def ensureAbstractDepth (s : Scan) (requiredDepth : Nat) : Scan :=
  { s with
    stack := s.stack ++ List.replicate (requiredDepth - s.stack.length) .unknown
    entryDepth := s.entryDepth + (requiredDepth - s.stack.length) }

def updateHeights (s : Scan) : Scan :=
  let relativeHeight : Int := s.stack.length - s.entryDepth
  { s with
    stackHeightDiff := relativeHeight
    maxStackHeight := max s.maxStackHeight relativeHeight
    minStackHeight := min s.minStackHeight relativeHeight
    minPopHeight := min s.minPopHeight (-s.entryDepth) }

/-- The stack after an instruction whose new values are given, and the next program counter. -/
def apply (s : Scan) (op : OperandStack.Op) (out : List AbstractValue) (nextPC : Nat) : Scan :=
  let s := s.ensureAbstractDepth op.need
  { s with stack := op.run out s.stack, scanPC := nextPC }.updateHeights

end Scan

structure Next where
  entryPC : Nat
  bodyStartPC : Nat
deriving DecidableEq, Repr

section Blocks

variable (tables : StackTables) (rev : Revision) (code : Bytes)

/-- `skipDeadCode`: where it stops, and the block that starts there. -/
def skipDeadCode : Nat → Nat → Nat × Option Next
  | 0, scanPC => (scanPC, none)
  | fuel + 1, scanPC =>
    if scanPC < code.length then
      if opAt code scanPC = .jumpdest then
        let canonicalPC := getCanonicalJumpDestPC code scanPC
        (scanPC, some ⟨canonicalPC, canonicalPC + 1⟩)
      else skipDeadCode fuel (scanPC + (opAt code scanPC).len)
    else (scanPC, none)

/-- The new values of an opcode that has no case of its own, and how many values it takes. -/
def metricsOp (b : UInt8) : OperandStack.Op :=
  let popCount := tables.stackHeightRequired rev b
  .plain popCount.toNat (popCount + tables.stackHeightChange rev b).toNat

def unknowns (op : OperandStack.Op) : List AbstractValue := List.replicate op.fresh .unknown

/-- The opcodes after which `analyzeBlockBody` goes on: the effect and the new values. `none` is for those
that end the block. -/
def straightOp (pc : Nat) : Option (OperandStack.Op × List AbstractValue) :=
  match opAt code pc with
  | .jumpdest | .jump | .jumpi | .stop | .return' | .invalid | .revert | .selfdestruct => none
  | .dup n => some (.dup (n - 1), [])
  | .swap n => some (.swap n, [])
  | .push n => some (.plain 0 1, [.constFromPush code (pc + 1) n])
  | .push0 => some (.plain 0 1, [.constFromPush code (pc + 1) 0])
  | _ =>
    let op := metricsOp tables rev (byteAt code pc)
    some (op, unknowns op)

/-- How the scan of a block ends: the block, the loop's variables and the next block. -/
structure Scanned where
  body : BlockBody
  scan : Scan
  next : Option Next
deriving DecidableEq, Repr

/-- A `JUMP`. -/
def endJump (body : BlockBody) (s : Scan) : Scanned :=
  let dest := ((s.ensureAbstractDepth 1).stack.head?).getD .unknown
  let constant := dest.knownConst && dest.fitsU64 && hasCanonicalJumpDest code dest.low
  let s := s.apply (.plain 1 0) [] (s.scanPC + 1)
  let skipped := skipDeadCode code code.length s.scanPC
  let target := getCanonicalJumpDestPC code dest.low
  { body :=
      if constant then
        { body with
          hasConstantJump := true, constantJumpTargetPC := target
          successors := body.successors ++ [target], bodyEndPC := s.scanPC }
      else
        { body with
          hasDynamicJump := true, bodyEndPC := s.scanPC
          dynamicJumpTargetRegionEntryPC := match skipped.2 with
            | some next => next.entryPC
            | none => body.dynamicJumpTargetRegionEntryPC }
    scan := { s with scanPC := skipped.1 }
    next := skipped.2 }

/-- Where control falls through a `JUMPI` at `pc`. -/
def fallthroughNext (pc : Nat) : Next :=
  if pc + 1 < code.length ∧ opAt code (pc + 1) = .jumpdest then
    ⟨getCanonicalJumpDestPC code (pc + 1), getCanonicalJumpDestPC code (pc + 1) + 1⟩
  else ⟨pc + 1, pc + 1⟩

/-- A `JUMPI`. -/
def endJumpI (body : BlockBody) (s : Scan) : Scanned :=
  let dest := ((s.ensureAbstractDepth 2).stack.head?).getD .unknown
  let constant := dest.knownConst && dest.fitsU64 && hasCanonicalJumpDest code dest.low
  let next := fallthroughNext code s.scanPC
  let s := s.apply (.plain 2 0) [] (s.scanPC + 1)
  let target := getCanonicalJumpDestPC code dest.low
  { body :=
      if constant then
        { body with
          hasConditionalJump := true, hasConstantJump := true, constantJumpTargetPC := target
          successors := body.successors ++ [next.entryPC] ++
            (if target ≠ next.entryPC then [target] else [])
          bodyEndPC := s.scanPC }
      else if dest.knownConst = false ∨ dest.fitsU64 = false then
        { body with
          hasConditionalJump := true, hasDynamicJump := true
          dynamicJumpTargetRegionEntryPC := next.entryPC
          successors := body.successors ++ [next.entryPC], bodyEndPC := s.scanPC }
      else
        { body with
          hasConditionalJump := true, successors := body.successors ++ [next.entryPC]
          bodyEndPC := s.scanPC }
    scan := s
    next := some next }

def endOther (body : BlockBody) (s : Scan) : Scanned :=
  let op := metricsOp tables rev (byteAt code s.scanPC)
  let s := s.apply op (unknowns op) (s.scanPC + 1)
  let skipped := skipDeadCode code code.length s.scanPC
  { body := { body with bodyEndPC := s.scanPC }
    scan := { s with scanPC := skipped.1 }
    next := skipped.2 }

def endUndefined (body : BlockBody) (s : Scan) : Scanned :=
  let skipped := skipDeadCode code code.length (s.scanPC + 1)
  { body := { body with hasUndefinedInstr := true, bodyEndPC := s.scanPC + 1 }
    scan := { s with scanPC := skipped.1 }
    next := skipped.2 }

/-- A `JUMPDEST`, which belongs to the next block. -/
def endJumpDest (body : BlockBody) (s : Scan) : Scanned :=
  let canonicalPC := getCanonicalJumpDestPC code s.scanPC
  { body := { body with successors := body.successors ++ [canonicalPC], bodyEndPC := s.scanPC }
    scan := s
    next := some ⟨canonicalPC, canonicalPC + 1⟩ }

/-- The loop of `analyzeBlockBody`. -/
def scanBody (body : BlockBody) : Nat → Scan → Scanned
  | 0, s => ⟨body, s, none⟩
  | fuel + 1, s =>
    if s.scanPC < code.length then
      if opAt code s.scanPC = .jumpdest then endJumpDest code body s
      else if tables.defined rev (byteAt code s.scanPC) = false then endUndefined code body s
      else match straightOp tables rev code s.scanPC with
        | some (op, out) =>
          scanBody body fuel (s.apply op out (s.scanPC + (opAt code s.scanPC).len))
        | none => match opAt code s.scanPC with
          | .jump => endJump code body s
          | .jumpi => endJumpI code body s
          | _ => endOther tables rev code body s
    else ⟨body, s, none⟩

/-- What `analyzeBlockBody` writes after the loop. -/
def Scanned.finish (r : Scanned) : BlockBody :=
  { r.body with
    bodyEndPC := if code.length ≤ r.scan.scanPC then code.length else r.body.bodyEndPC
    maxStackHeight := r.scan.maxStackHeight
    entryStackDepth := r.scan.entryDepth
    minStackHeight := min r.scan.minStackHeight (-r.scan.entryDepth)
    minPopHeight := min r.scan.minPopHeight (-r.scan.entryDepth)
    stackHeightDiff := r.scan.stack.length - r.scan.entryDepth }

def BlockBody.start (entryPC bodyStartPC : Nat) (isJumpDest : Bool) : BlockBody where
  entryPC := entryPC
  bodyStartPC := bodyStartPC
  bodyEndPC := bodyStartPC
  isJumpDest := isJumpDest

/-- `analyzeBlockBody`, up to what is written after the loop. -/
def scanBlock (entryPC bodyStartPC : Nat) (isJumpDest : Bool) : Scanned :=
  scanBody tables rev code (.start entryPC bodyStartPC isJumpDest) code.length ⟨bodyStartPC, [], 0, 0, 0, 0, 0⟩

/-- The loop of `buildBlocks`. -/
def buildBlocksLoop : Nat → Nat → Nat → Bool → List BlockBody
  | 0, _, _, _ => []
  | fuel + 1, curEntryPC, bodyStartPC, isJumpDestBlock =>
    let r := scanBlock tables rev code curEntryPC bodyStartPC isJumpDestBlock
    r.finish code :: match r.next with
      | none => []
      | some next =>
        if code.length < next.bodyStartPC then []
        else buildBlocksLoop fuel next.entryPC next.bodyStartPC
          (hasCanonicalJumpDest code next.entryPC &&
            getCanonicalJumpDestPC code next.entryPC == next.entryPC)

def entryBlockPC : Nat :=
  if 0 < code.length ∧ opAt code 0 = .jumpdest then getCanonicalJumpDestPC code 0 else 0

def buildBlocks : List BlockBody :=
  if code.length = 0 then [.start 0 0 false]
  else if opAt code 0 = .jumpdest then
    buildBlocksLoop tables rev code (code.length + 1) (entryBlockPC code) (entryBlockPC code + 1) true
  else buildBlocksLoop tables rev code (code.length + 1) 0 0 false

end Blocks

/-! ## Depths at entry -/

def find? (infos : List BlockInfo) (pc : Nat) : Option BlockInfo :=
  infos.find? fun info => info.entryPC == pc

/-- A write through `BlockInfos.find`. -/
def modify (infos : List BlockInfo) (pc : Nat) (f : BlockInfo → BlockInfo) : List BlockInfo :=
  infos.map fun info => if info.entryPC = pc then f info else info

/-- `appendUniqueBlockPC`. -/
def appendUnique (pcs : List Nat) (pc : Nat) : List Nat := if pc ∈ pcs then pcs else pcs ++ [pc]

def linkPredecessors (infos : List BlockInfo) : List BlockInfo :=
  infos.foldl (fun linked info => info.successors.foldl (fun linked succ =>
    modify linked succ fun i => { i with predecessors := appendUnique i.predecessors info.entryPC })
    linked) infos

/-- The `Visited.emplace` of a block's successors: those that are new. -/
def freshSuccessors (visited : List Nat) (successors : List Nat) : List Nat :=
  successors.foldl (fun new succ => if succ ∈ visited ++ new then new else new ++ [succ]) []

/-- The loop by which `invalidateReachableEntryDepths` and `markDynamicJumpTargetCandidates` visit the
blocks that can be reached from one. -/
def visitLoop (infos : List BlockInfo) : Nat → List Nat → List Nat → List Nat
  | 0, _, visited => visited
  | _ + 1, [], visited => visited
  | fuel + 1, pc :: workList, visited =>
    match find? infos pc with
    | none => visitLoop infos fuel workList visited
    | some info =>
      let new := freshSuccessors visited info.successors
      visitLoop infos fuel (workList ++ new) (visited ++ new)

/-- The blocks that are visited from one. Each successor enters the work list once at most. -/
def reachable (infos : List BlockInfo) (pc : Nat) : List Nat :=
  visitLoop infos (1 + (infos.flatMap fun info => info.successors).length) [pc] [pc]

def invalidateReachableEntryDepths (infos : List BlockInfo) (pc : Nat) : List BlockInfo :=
  let visited := reachable infos pc
  infos.map fun info =>
    if info.entryPC ∈ visited then
      { info with
        hasInconsistentEntryDepth := true, resolvedEntryStackDepth := -1, resolvedExitStackDepth := -1 }
    else info

/-- What `propagateEntryDepths` does to a successor, and `resolveDynamicJumpTargetEntryDepths` to a
target: take the depth over, and put the block on the work list, or invalidate it. -/
def enterAt (depth : Int) (st : List BlockInfo × List Nat) (pc : Nat) : List BlockInfo × List Nat :=
  match find? st.1 pc with
  | none => st
  | some info =>
    if info.hasInconsistentEntryDepth then st
    else if info.resolvedEntryStackDepth < 0 then
      (modify st.1 pc fun i => { i with resolvedEntryStackDepth := depth }, st.2 ++ [pc])
    else if info.resolvedEntryStackDepth ≠ depth then
      (invalidateReachableEntryDepths st.1 pc, st.2)
    else st

/-- The body of the loop of `propagateEntryDepths`, with what is put on the work list. -/
def propagateStep (infos : List BlockInfo) (pc : Nat) : List BlockInfo × List Nat :=
  match find? infos pc with
  | none => (infos, [])
  | some info =>
    if info.resolvedEntryStackDepth < 0 then (infos, [])
    else
      let exitDepth := info.resolvedEntryStackDepth + info.stackHeightDiff
      info.successors.foldl (enterAt exitDepth)
        (modify infos pc fun i => { i with resolvedExitStackDepth := exitDepth }, [])

/-- `propagateEntryDepths`; `none` if the fuel does not last. -/
def propagateEntryDepths : Nat → List BlockInfo → List Nat → Option (List BlockInfo)
  | _, infos, [] => some infos
  | 0, _, _ :: _ => none
  | fuel + 1, infos, pc :: workList =>
    let r := propagateStep infos pc
    propagateEntryDepths fuel r.1 (workList ++ r.2)

def resolveEntryDepths (fuel entryPC : Nat) (infos : List BlockInfo) : Option (List BlockInfo) :=
  match find? infos entryPC with
  | none => some infos
  | some _ =>
    propagateEntryDepths fuel
      (modify infos entryPC fun i => { i with resolvedEntryStackDepth := 0 }) [entryPC]

/-! ## Targets of jumps that are computed at run time -/

def hasUnknownDynamicJump (infos : List BlockInfo) : Bool := infos.any fun info => info.hasDynamicJump

def collectReachableDynamicJumpRegions (infos : List BlockInfo) : List Nat :=
  infos.foldl (fun regions info =>
    if info.hasDynamicJump = false ∨ info.resolvedEntryStackDepth < 0 ∨
        info.dynamicJumpTargetRegionEntryPC = 0 then regions
    else appendUnique regions info.dynamicJumpTargetRegionEntryPC) []

def markRegion (infos : List BlockInfo) (regionEntryPC : Nat) : List BlockInfo :=
  let visited := reachable infos regionEntryPC
  infos.map fun info =>
    if info.entryPC ∈ visited ∧ info.isJumpDest = true then
      { info with
        isDynamicJumpTargetCandidate := true
        dynamicJumpTargetRegions := appendUnique info.dynamicJumpTargetRegions regionEntryPC }
    else info

/-- `markDynamicJumpTargetCandidates`. Every `JUMPDEST` is a candidate in the end, in a region or not. -/
def markDynamicJumpTargetCandidates (infos : List BlockInfo) : List BlockInfo :=
  let infos := infos.map fun info =>
    { info with
      isDynamicJumpTargetCandidate := false, hasCompatibleDynamicJumpTargetShape := false
      dynamicJumpTargetRegions := [] }
  if hasUnknownDynamicJump infos = false then infos
  else
    ((collectReachableDynamicJumpRegions infos).foldl markRegion infos).map fun info =>
      if info.isJumpDest then { info with isDynamicJumpTargetCandidate := true } else info

/-- The loop of `getUniformDynamicJumpEntryDepthForRegion`, with the depth seen so far. -/
def uniformDepthLoop (regionEntryPC : Nat) : List BlockInfo → Option Int → Option Int
  | [], seen => seen
  | info :: rest, seen =>
    if info.hasDynamicJump = false ∨ info.dynamicJumpTargetRegionEntryPC ≠ regionEntryPC ∨
        info.resolvedEntryStackDepth < 0 then uniformDepthLoop regionEntryPC rest seen
    else if info.resolvedExitStackDepth < 0 then none
    else match seen with
      | none => uniformDepthLoop regionEntryPC rest (some info.resolvedExitStackDepth)
      | some depth =>
        if depth ≠ info.resolvedExitStackDepth then none
        else uniformDepthLoop regionEntryPC rest (some depth)

def getUniformDynamicJumpEntryDepthForRegion (infos : List BlockInfo) (regionEntryPC : Nat) :
    Option Int := uniformDepthLoop regionEntryPC infos none

def enterRegion (infos : List BlockInfo) (regionEntryPC : Nat) (depth : Int) :
    List BlockInfo × List Nat :=
  (infos.map fun info => info.entryPC).foldl (fun st pc =>
    match find? st.1 pc with
    | none => st
    | some info => if regionEntryPC ∈ info.dynamicJumpTargetRegions then enterAt depth st pc else st)
    (infos, [])

def resolveDynamicJumpTargetEntryDepths (fuel : Nat) (infos : List BlockInfo) :
    Option (List BlockInfo) :=
  if hasUnknownDynamicJump infos = false then some infos
  else
    (collectReachableDynamicJumpRegions infos).foldlM (fun infos regionEntryPC =>
      match getUniformDynamicJumpEntryDepthForRegion infos regionEntryPC with
      | none => some infos
      | some depth =>
        let r := enterRegion infos regionEntryPC depth
        propagateEntryDepths fuel r.1 r.2) infos

/-! ## Shapes -/

/-- `DynamicJumpTargetShape`, and the key of a class of them. -/
structure Shape where
  fullEntryStateDepth : Int
  hiddenLiveInPrefixDepth : Int
  requiresEntryMergeState : Bool
deriving DecidableEq, Repr

def BlockInfo.shape (info : BlockInfo) : Shape :=
  ⟨info.fullEntryStateDepth, info.hiddenLiveInPrefixDepth, info.requiresEntryMergeState⟩

/-- `DynamicJumpRegionInfo`, as far as it is read. -/
structure RegionInfo where
  regionEntryPC : Nat
  targetBlocks : List Nat
  hasCompatibleTargetShape : Bool
  shapeClassId : Nat
deriving DecidableEq, Repr

def hasCompatibleDynamicJumpTargetsForRegion (infos : List BlockInfo) (regionEntryPC : Nat) : Bool :=
  match getUniformDynamicJumpEntryDepthForRegion infos regionEntryPC with
  | none => false
  | some depth =>
    match infos.filter fun info => info.dynamicJumpTargetRegions.contains regionEntryPC with
    | [] => false
    | first :: others => (first :: others).all fun info =>
      info.isEntryStateCompatible && info.fullEntryStateDepth == depth && info.shape == first.shape

/-- The number of a shape, in the order in which they come up. -/
def shapeClassId (classes : List Shape) (shape : Shape) : Nat :=
  if shape ∈ classes then classes.idxOf shape + 1 else classes.length + 1

/-- One region of `finalizeDynamicJumpRegionMetadata`. A region with compatible targets has the shape of
any of them. -/
def addRegion (infos : List BlockInfo) (st : List RegionInfo × List Shape) (regionEntryPC : Nat) :
    List RegionInfo × List Shape :=
  let targets := infos.filter fun info => info.dynamicJumpTargetRegions.contains regionEntryPC
  let targetBlocks := targets.map fun info => info.entryPC
  if hasCompatibleDynamicJumpTargetsForRegion infos regionEntryPC = false then
    (st.1 ++ [⟨regionEntryPC, targetBlocks, false, 0⟩], st.2)
  else
    let shape := (targets.getLast?.map BlockInfo.shape).getD ⟨-1, 0, false⟩
    (st.1 ++ [⟨regionEntryPC, targetBlocks, true, shapeClassId st.2 shape⟩],
      if shape ∈ st.2 then st.2 else st.2 ++ [shape])

def finalizeDynamicJumpRegionMetadata (infos : List BlockInfo) : List RegionInfo :=
  ((collectReachableDynamicJumpRegions infos).foldl (addRegion infos) ([], [])).1

section Regions

variable (regions : List RegionInfo)

def getDynamicJumpRegionInfo (regionEntryPC : Nat) : Option RegionInfo :=
  regions.find? fun r => r.regionEntryPC == regionEntryPC

/-- `getCompatibleDynamicJumpShapeClassIdsForBlock`. -/
def compatibleShapeClassIds (info : BlockInfo) : List Nat :=
  info.dynamicJumpTargetRegions.foldl (fun ids regionEntryPC =>
    match getDynamicJumpRegionInfo regions regionEntryPC with
    | none => ids
    | some r =>
      if r.hasCompatibleTargetShape = false ∨ r.shapeClassId = 0 then ids
      else appendUnique ids r.shapeClassId) []

/-- `getOutgoingCompatibleDynamicJumpShapeClassForBlock`. -/
def outgoingShapeClassId (info : BlockInfo) : Nat :=
  if info.hasDynamicJump = false ∨ info.dynamicJumpTargetRegionEntryPC = 0 then 0
  else match getDynamicJumpRegionInfo regions info.dynamicJumpTargetRegionEntryPC with
    | none => 0
    | some r => if r.hasCompatibleTargetShape then r.shapeClassId else 0

/-- `blockHasCompatibleDynamicJumpShapeClass`. -/
def hasShapeClass (info : BlockInfo) (id : Nat) : Bool :=
  id != 0 && (compatibleShapeClassIds regions info).contains id

/-- `blocksShareCompatibleDynamicJumpShapeClass`. -/
def blocksShareShapeClass (info other : BlockInfo) : Bool :=
  ((compatibleShapeClassIds regions info).any fun id =>
    (compatibleShapeClassIds regions other).contains id) ||
  (outgoingShapeClassId regions info != 0 &&
    (hasShapeClass regions other (outgoingShapeClassId regions info) ||
      outgoingShapeClassId regions info == outgoingShapeClassId regions other)) ||
  (outgoingShapeClassId regions other != 0 &&
    hasShapeClass regions info (outgoingShapeClassId regions other))

variable (infos : List BlockInfo)

/-- `collectDynamicJumpSourceBlocksForInfo`. -/
def dynamicJumpSourceBlocks (info : BlockInfo) : List Nat :=
  let resolved := infos.filter fun source =>
    source.hasDynamicJump && decide (0 ≤ source.resolvedEntryStackDepth)
  if info.hasCompatibleDynamicJumpTargetShape then
    (resolved.filter fun source => blocksShareShapeClass regions source info).map fun i => i.entryPC
  else if info.dynamicJumpTargetRegions = [] then
    if hasUnknownDynamicJump infos = false ∨ info.isDynamicJumpTargetCandidate = false then []
    else resolved.map fun i => i.entryPC
  else
    info.dynamicJumpTargetRegions.foldl (fun pcs regionEntryPC =>
      infos.foldl (fun pcs source =>
        if source.hasDynamicJump = false ∨ source.dynamicJumpTargetRegionEntryPC ≠ regionEntryPC
        then pcs else appendUnique pcs source.entryPC) pcs) []

/-- `getPotentialEntryPredecessorsForBlock`. -/
def potentialEntryPredecessors (info : BlockInfo) : List Nat :=
  (dynamicJumpSourceBlocks regions infos info).foldl appendUnique info.predecessors

/-- `hasGloballyIncompatibleDynamicJumpSource`, for a target whose own regions are compatible. -/
def hasGloballyIncompatibleDynamicJumpSource (target : BlockInfo) : Bool :=
  infos.any fun source =>
    source.hasDynamicJump && decide (0 ≤ source.resolvedEntryStackDepth) &&
    source.dynamicJumpTargetRegionEntryPC != 0 &&
    (target.dynamicJumpTargetRegions.isEmpty ||
      target.dynamicJumpTargetRegions.contains source.dynamicJumpTargetRegionEntryPC) &&
    !blocksShareShapeClass regions source target

end Regions

/-! ## The decision -/

/-- The first loop of `finalizeEntryShapeMetadata`. -/
def entryShapes (infos : List BlockInfo) : List BlockInfo :=
  infos.map fun info =>
    let compatible := decide (0 ≤ info.resolvedEntryStackDepth) && !info.hasInconsistentEntryDepth
    let hidden := if compatible = true ∧ info.entryStackDepth < info.resolvedEntryStackDepth then
      info.resolvedEntryStackDepth - info.entryStackDepth else 0
    { info with
      fullEntryStateDepth := info.resolvedEntryStackDepth
      isEntryStateCompatible := compatible
      hiddenLiveInPrefixDepth := hidden
      hasHiddenLiveInPrefix := decide (0 < hidden)
      requiresEntryMergeState :=
        compatible && decide (1 < (potentialEntryPredecessors [] infos info).length)
      hasDeferredEntryMerge := false }

/-- The second loop of `finalizeEntryShapeMetadata`. -/
def targetShapes (regions : List RegionInfo) (infos : List BlockInfo) : List BlockInfo :=
  infos.map fun info =>
    let allCompatibleRegions := info.isDynamicJumpTargetCandidate &&
      info.dynamicJumpTargetRegions.all fun regionEntryPC =>
        (collectReachableDynamicJumpRegions infos).contains regionEntryPC &&
          hasCompatibleDynamicJumpTargetsForRegion infos regionEntryPC
    let compatible :=
      allCompatibleRegions && !hasGloballyIncompatibleDynamicJumpSource regions infos info
    { info with
      hasCompatibleDynamicJumpTargetShape := compatible, hasDeferredEntryMerge := compatible }

def finalizeLiftability (regions : List RegionInfo) (infos : List BlockInfo) : List BlockInfo :=
  infos.map fun info =>
    let dynamicJumpDestConflict := hasUnknownDynamicJump infos &&
      info.isDynamicJumpTargetCandidate && !info.hasCompatibleDynamicJumpTargetShape
    let canLiftStack := info.isEntryStateCompatible && !info.hasUndefinedInstr &&
      !info.hasInconsistentEntryDepth && !dynamicJumpDestConflict
    let unmerged := info.isDynamicJumpTargetCandidate && info.hasDeferredEntryMerge &&
      decide (0 < info.hiddenLiveInPrefixDepth) &&
      (dynamicJumpSourceBlocks regions infos info).isEmpty
    { info with canLiftStack := canLiftStack && !unmerged }

structure Analysis where
  blockInfos : List BlockInfo
  dynamicJumpRegions : List RegionInfo
deriving DecidableEq, Repr

def finalize (infos : List BlockInfo) : Analysis :=
  let infos := entryShapes infos
  let regions := finalizeDynamicJumpRegionMetadata infos
  ⟨finalizeLiftability regions (targetShapes regions infos), regions⟩

/-- `analyze`, with fuel for the loops of `propagateEntryDepths`. -/
def analyze (tables : StackTables) (rev : Revision) (code : Bytes) (fuel : Nat) : Option Analysis := do
  let infos := linkPredecessors ((buildBlocks tables rev code).map fun body => { toBlockBody := body })
  let infos ← resolveEntryDepths fuel (entryBlockPC code) infos
  let infos ← resolveDynamicJumpTargetEntryDepths fuel (markDynamicJumpTargetCandidates infos)
  some (finalize infos)

end Analyzer

end Dtvm.Jit
