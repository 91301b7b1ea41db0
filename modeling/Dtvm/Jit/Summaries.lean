import Dtvm.Jit.BlockExit
import Dtvm.Stack.Depth

/-!
# The stack summaries of blocks

`analyzeBlockBody` follows a block with a stack that grows at its bottom on demand, and writes down how far
it had to grow (`EntryStackDepth`, `MinStackHeight`), how high it rose (`MaxStackHeight`) and where it ended
(`StackHeightDiff`). The compiler checks the stack once at the entry of a block with these numbers, in place of
a check at each opcode.

The scan of a block computes the summary of the run of its opcodes (`scanBody_summary`). So the check at the
entry fails exactly if a check at one of the opcodes would (`blockSummary_exact`).
-/

namespace Dtvm.Jit.Analyzer

open OperandStack

section Opcodes

variable (tables : StackTables) (rev : Revision) (code : Bytes)

/-- The opcodes at which the loop of `analyzeBlockBody` stands, from a program counter on. -/
def scannedOpcodes : Nat → Nat → List Nat
  | 0, _ => []
  | fuel + 1, pc =>
    if pc < code.length then
      if opAt code pc = .jumpdest then []
      else if tables.defined rev (byteAt code pc) = false then [pc]
      else match straightOp tables rev code pc with
        | some _ => pc :: scannedOpcodes fuel (pc + (opAt code pc).len)
        | none => [pc]
    else []

/-- The opcodes of a block's body, up to the one that ends it. -/
def BlockBody.opcodes (b : BlockBody) : List Nat := scannedOpcodes tables rev code code.length b.bodyStartPC

/-- What the opcode at a program counter does to the depth of the stack. One that the revision lacks does
nothing to it; one that only the tables know does what they say. -/
def effectAt (pc : Nat) : Op :=
  if tables.defined rev (byteAt code pc) = false then .plain 0 0
  else if opAt code pc = .unknown then metricsOp tables rev (byteAt code pc)
  else (opAt code pc).stackOp

def BlockBody.effects (b : BlockBody) : List Op := (b.opcodes tables rev code).map (effectAt tables rev code)

variable {tables rev code} {pc : Nat}

theorem effectAt_undefined (undefined : tables.defined rev (byteAt code pc) = false) :
    effectAt tables rev code pc = .plain 0 0 := if_pos undefined

variable (defined : tables.defined rev (byteAt code pc) = true)

include defined

theorem effectAt_known (known : opAt code pc ≠ .unknown) : effectAt tables rev code pc = (opAt code pc).stackOp := by
  rw [effectAt, if_neg (Bool.not_eq_false _ ▸ defined), if_neg known]

theorem metricsOp_eq (dup : ∀ n, opAt code pc ≠ .dup n) (swap : ∀ n, opAt code pc ≠ .swap n) :
    metricsOp tables rev (byteAt code pc) = effectAt tables rev code pc := by
  by_cases unknown : opAt code pc = .unknown
  · rw [effectAt, if_neg (Bool.not_eq_false _ ▸ defined), if_pos unknown]
  · obtain ⟨required, change⟩ := tables.documented rev (byteAt code pc) defined unknown
    rw [effectAt_known defined unknown, stackOp_plain dup swap, metricsOp, required, change]
    show Op.plain (Int.toNat _) (Int.toNat (_ + (_ - _))) = _
    rw [add_sub_cancel, Int.toNat_natCast, Int.toNat_natCast]
    rfl

theorem straightOp_effect {op : Op}
    {out : List AbstractValue} (straight : straightOp tables rev code pc = some (op, out)) :
    op = effectAt tables rev code pc ∧ out.length = op.fresh := by
  have known {o : Opcode} (eq : opAt code pc = o) (ne : o ≠ .unknown) :
      effectAt tables rev code pc = o.stackOp := by
    rw [effectAt_known defined (eq ▸ ne), eq]
  unfold straightOp at straight
  split at straight
  iterate 8 · cases straight
  iterate 4
    · next eq =>
      cases straight
      exact ⟨(known eq Opcode.noConfusion).symm, rfl⟩
  · next dup swap _ _ =>
    cases straight
    exact ⟨metricsOp_eq defined dup swap, List.length_replicate⟩

theorem effectAt_of_ends (ends : straightOp tables rev code pc = none) :
    effectAt tables rev code pc = metricsOp tables rev (byteAt code pc) := by
  refine (metricsOp_eq defined (fun n dup => ?_) (fun n swap => ?_)).symm
  · rw [straightOp, dup] at ends
    cases ends
  · rw [straightOp, swap] at ends
    cases ends

end Opcodes

/-! ## The scan -/

def Scan.summary (s : Scan) : Summary := ⟨s.entryDepth, s.stack.length - s.entryDepth, s.maxStackHeight⟩

/-- The heights of a scan are between its lowest and its greatest. -/
structure Scan.Steady (s : Scan) : Prop where
  top : s.summary.height ≤ s.maxStackHeight
  low : -(s.entryDepth : Int) ≤ s.minStackHeight

namespace Scan

variable (s : Scan) (op : Op) {out : List AbstractValue} (pc : Nat)

theorem summary_apply (fits : out.length = op.fresh) : (s.apply op out pc).summary = s.summary.add op := by
  have deep := Matches.length_ensure s op.need
  have after := Op.length_run deep fits
  have length : (s.ensureAbstractDepth op.need).stack.length = s.stack.length + (op.need - s.stack.length) := by
    show (s.stack ++ List.replicate _ _).length = _
    rw [List.length_append, List.length_replicate]
  have entry : s.entryDepth + (op.need - s.stack.length) =
      max s.entryDepth (op.need - ((s.stack.length : Int) - s.entryDepth)).toNat := by omega
  have height : ((op.run out (s.ensureAbstractDepth op.need).stack).length : Int) -
      ((s.entryDepth + (op.need - s.stack.length) : Nat) : Int) =
        (s.stack.length : Int) - s.entryDepth + op.gives - op.need := by omega
  show Summary.mk (s.entryDepth + (op.need - s.stack.length)) _ (max s.maxStackHeight _) = ⟨_, _, _⟩
  exact congr (congr (congrArg Summary.mk entry) height) (congrArg (max s.maxStackHeight) height)

variable {s}

theorem Steady.apply (h : s.Steady) : (s.apply op out pc).Steady := by
  refine ⟨Int.le_max_right _ _, ?_⟩
  have low := h.low
  show -((s.entryDepth + (op.need - s.stack.length) : Nat) : Int) ≤
    min s.minStackHeight ((op.run out (s.ensureAbstractDepth op.need).stack).length -
      ((s.entryDepth + (op.need - s.stack.length) : Nat) : Int))
  omega

theorem Steady.add_nothing (h : s.Steady) : s.summary.add (.plain 0 0) = s.summary := by
  have top := h.top
  have entry : max s.entryDepth (0 - ((s.stack.length : Int) - s.entryDepth)).toNat = s.entryDepth := by omega
  have height : (s.stack.length : Int) - s.entryDepth + 0 - 0 = s.stack.length - s.entryDepth := by omega
  refine congr (congr (congrArg Summary.mk entry) height) ?_
  show max s.maxStackHeight ((s.stack.length : Int) - s.entryDepth + 0 - 0) = s.maxStackHeight
  rw [height]
  exact max_eq_left top

end Scan

section Scans

variable (tables : StackTables) (rev : Revision) (code : Bytes)

theorem scanBody_summary (body : BlockBody) (fuel : Nat) {s : Scan} (steady : s.Steady) :
    (scanBody tables rev code body fuel s).scan.summary =
        s.summary.addAll ((scannedOpcodes tables rev code fuel s.scanPC).map (effectAt tables rev code)) ∧
      -((scanBody tables rev code body fuel s).scan.entryDepth : Int) ≤
        (scanBody tables rev code body fuel s).scan.minStackHeight := by
  induction fuel generalizing s with
  | zero => exact ⟨rfl, steady.low⟩
  | succ fuel ih =>
    rw [scanBody, scannedOpcodes]
    by_cases inside : s.scanPC < code.length
    · rw [if_pos inside, if_pos inside]
      by_cases dest : opAt code s.scanPC = .jumpdest
      · rw [if_pos dest, if_pos dest]
        exact ⟨rfl, steady.low⟩
      · rw [if_neg dest, if_neg dest]
        by_cases undefined : tables.defined rev (byteAt code s.scanPC) = false
        · rw [if_pos undefined, if_pos undefined]
          refine ⟨?_, steady.low⟩
          show s.summary = s.summary.add (effectAt tables rev code s.scanPC)
          rw [effectAt_undefined undefined, steady.add_nothing]
        · rw [if_neg undefined, if_neg undefined]
          have defined := Bool.eq_true_of_not_eq_false undefined
          -- The opcode that ends the block: the scan applies its effect before it looks for the next block.
          have last (op : Op) (out : List AbstractValue) (fits : out.length = op.fresh)
              (eq : op = effectAt tables rev code s.scanPC) :
              (s.apply op out (s.scanPC + 1)).summary =
                s.summary.addAll ([s.scanPC].map (effectAt tables rev code)) := by
            rw [s.summary_apply op _ fits, eq]
            rfl
          cases straight : straightOp tables rev code s.scanPC with
          | some r =>
            have straight : _ = some (r.1, r.2) := straight
            obtain ⟨eq, fits⟩ := straightOp_effect defined straight
            have rest := ih (s := s.apply r.1 r.2 (s.scanPC + (opAt code s.scanPC).len)) (steady.apply _ _)
            rw [s.summary_apply r.1 _ fits] at rest
            dsimp only
            rw [List.map_cons, ← eq]
            exact rest
          | none =>
            have eq := effectAt_of_ends defined straight
            dsimp only
            split
            · next jump =>
              refine ⟨last (.plain 1 0) [] rfl ?_, (steady.apply _ _).low⟩
              rw [effectAt_known defined (jump ▸ Opcode.noConfusion), jump]
              rfl
            · next jumpi =>
              refine ⟨last (.plain 2 0) [] rfl ?_, (steady.apply _ _).low⟩
              rw [effectAt_known defined (jumpi ▸ Opcode.noConfusion), jumpi]
              rfl
            · exact ⟨last _ _ List.length_replicate eq.symm, (steady.apply _ _).low⟩
    · rw [if_neg inside, if_neg inside]
      exact ⟨rfl, steady.low⟩

theorem scanned_summary (b : BlockBody) :
    (b.scanned tables rev code).scan.summary = Summary.addAll {} (b.effects tables rev code) ∧
      -((b.scanned tables rev code).scan.entryDepth : Int) ≤ (b.scanned tables rev code).scan.minStackHeight := by
  have steady : Scan.Steady ⟨b.bodyStartPC, [], 0, 0, 0, 0, 0⟩ := ⟨Int.le_refl _, Int.le_refl _⟩
  exact scanBody_summary tables rev code (.start b.entryPC b.bodyStartPC b.isJumpDest) code.length steady

theorem blockSummary {b : BlockBody} (mem : b ∈ buildBlocks tables rev code) :
    b.minStackHeight = -(Summary.addAll {} (b.effects tables rev code)).entry ∧
      b.maxStackHeight = (Summary.addAll {} (b.effects tables rev code)).top ∧
      b.stackHeightDiff = (Summary.addAll {} (b.effects tables rev code)).height := by
  have scanned := (buildBlocks_laid tables rev code).1.scanned b mem
  obtain ⟨summary, low⟩ := scanned_summary tables rev code b
  rw [← summary]
  refine ⟨?_, congrArg BlockBody.maxStackHeight scanned, congrArg BlockBody.stackHeightDiff scanned⟩
  rw [congrArg BlockBody.minStackHeight scanned]
  exact min_eq_right low

end Scans

/-! ## The check at the entry -/

inductive StackFault where
  | underflow
  | overflow
deriving DecidableEq, Repr

/-- The code that `createStackCheckBlock` emits, on the size of the stack in bytes. -/
def createStackCheckBlock (minSize maxSize : Int) (stackSize : BitVec 64) : Option StackFault :=
  if 0 < minSize ∧ stackSize < BitVec.ofInt 64 (minSize * 32) then some .underflow
  else if BitVec.ofInt 64 (maxSize * 32) < stackSize then some .overflow
  else none

/-- The checks of `handleBeginBlock` for a block that is not lifted: what is known to be violated, and then the
check at run time. -/
def checkEntry (b : BlockBody) (stackSize : BitVec 64) : Option StackFault :=
  if maxStack < -b.minStackHeight then some .underflow
  else if maxStack < b.maxStackHeight then some .overflow
  else createStackCheckBlock (-b.minStackHeight) (maxStack - b.maxStackHeight) stackSize

theorem toNat_ofInt_mul {n : Int} (nonneg : 0 ≤ n) (fits : n ≤ maxStack) :
    (BitVec.ofInt 64 (n * 32)).toNat = n.toNat * 32 := by
  obtain ⟨k, rfl⟩ := Int.eq_ofNat_of_zero_le nonneg
  have fits : k ≤ 1024 := Int.ofNat_le.mp fits
  rw [show (k : Int) * 32 = ((k * 32 : Nat) : Int) from rfl, BitVec.ofInt_natCast, BitVec.toNat_ofNat,
    Nat.mod_eq_of_lt (by omega), Int.toNat_natCast]

theorem createStackCheckBlock_isSome {minSize maxSize : Int} {d : Nat} (fits : d ≤ maxStack)
    (min : 0 ≤ minSize ∧ minSize ≤ maxStack) (max : 0 ≤ maxSize ∧ maxSize ≤ maxStack) :
    (createStackCheckBlock minSize maxSize (BitVec.ofNat 64 (32 * d))).isSome = true ↔
      (d : Int) < minSize ∨ maxSize < d := by
  have fits : d ≤ 1024 := fits
  have size : (BitVec.ofNat 64 (32 * d)).toNat = 32 * d := by
    rw [BitVec.toNat_ofNat, Nat.mod_eq_of_lt (by omega)]
  have low : BitVec.ofNat 64 (32 * d) < BitVec.ofInt 64 (minSize * 32) ↔ 32 * d < minSize.toNat * 32 := by
    rw [BitVec.lt_def, size, toNat_ofInt_mul min.1 min.2]
  have high : BitVec.ofInt 64 (maxSize * 32) < BitVec.ofNat 64 (32 * d) ↔ maxSize.toNat * 32 < 32 * d := by
    rw [BitVec.lt_def, size, toNat_ofInt_mul max.1 max.2]
  rw [createStackCheckBlock]
  split
  · next under =>
    rw [low] at under
    exact ⟨fun _ => .inl (by omega), fun _ => rfl⟩
  · next enough =>
    split
    · next past =>
      rw [high] at past
      exact ⟨fun _ => .inr (by omega), fun _ => rfl⟩
    · next room =>
      refine ⟨(fun no => nomatch no), fun out => absurd out ?_⟩
      rw [low] at enough
      rw [high] at room
      omega

/-- **The summary of a block is exact, and so is the check at its entry.** -/
theorem blockSummary_exact (tables : StackTables) (rev : Revision) (code : Bytes) {b : BlockBody}
    (mem : b ∈ buildBlocks tables rev code) {d : Nat} (fits : d ≤ maxStack) :
    (underflows (b.effects tables rev code) d = true ↔ (d : Int) + b.minStackHeight < 0) ∧
      (underflows (b.effects tables rev code) d = false →
        (exceeds maxStack (b.effects tables rev code) d = true ↔ (maxStack : Int) < d + b.maxStackHeight) ∧
        (exceeds maxStack (b.effects tables rev code) d = false →
          (depthAfter (b.effects tables rev code) d : Int) = d + b.stackHeightDiff)) ∧
      (checkEntry b (BitVec.ofNat 64 (32 * d))).isSome = (checked maxStack (b.effects tables rev code) d).isNone ∧
      ∀ info : BlockInfo, info.toBlockBody = b → info.resolvedEntryStackDepth = d →
        validateLiftedBlockStackBounds info = (checked maxStack (b.effects tables rev code) d).isSome := by
  obtain ⟨min, max, diff⟩ := blockSummary tables rev code mem
  obtain ⟨low, ok⟩ := Summary.exact (b.effects tables rev code) fits
  have top := (Summary.le_addAll {} (b.effects tables rev code)).2
  rw [← max] at top ok
  rw [← diff] at ok
  have low : underflows (b.effects tables rev code) d = true ↔ (d : Int) + b.minStackHeight < 0 := by
    rw [low, min]
    omega
  have top : 0 ≤ b.maxStackHeight := top
  have nonpos : b.minStackHeight ≤ 0 := by omega
  -- Each opcode's own check.
  have checks : (checked maxStack (b.effects tables rev code) d).isNone = true ↔
      (d : Int) + b.minStackHeight < 0 ∨ (maxStack : Int) < d + b.maxStackHeight := by
    rw [checked_isNone, Bool.or_eq_true, low]
    by_cases under : (d : Int) + b.minStackHeight < 0
    · exact ⟨fun _ => .inl under, fun _ => .inl under⟩
    · have fine := Bool.eq_false_iff.mpr (mt low.mp under)
      rw [(ok fine).1]
  refine ⟨low, fun fine => ⟨(ok fine).1, fun _ => (ok fine).2⟩, ?_, ?_⟩
  · apply Bool.eq_iff_iff.mpr
    rw [checks, checkEntry]
    split
    · exact ⟨fun _ => .inl (by omega), fun _ => rfl⟩
    · split
      · exact ⟨fun _ => .inr (by omega), fun _ => rfl⟩
      · rw [createStackCheckBlock_isSome fits ⟨by omega, by omega⟩ ⟨by omega, by omega⟩]
        omega
  · intro info body depth
    apply Bool.eq_iff_iff.mpr
    have passes : (checked maxStack (b.effects tables rev code) d).isSome = true ↔
        ¬ (checked maxStack (b.effects tables rev code) d).isNone = true := by
      rw [Option.isNone_iff_eq_none, Option.isSome_iff_ne_none]
    rw [passes, checks, validateLiftedBlockStackBounds, depth, body, Bool.and_eq_true, decide_eq_true_iff,
      decide_eq_true_iff]
    omega

/-- `ADD` finds one operand too few. -/
theorem blockSummary_exact_add : ∃ b ∈ buildBlocks freeTables .cancun [0x01], 1 ≤ maxStack ∧
    underflows (b.effects freeTables .cancun [0x01]) 1 = true ∧ (1 : Int) + b.minStackHeight < 0 := by
  have mem : buildBlocks freeTables .cancun [0x01] =
      [⟨0, 0, 1, false, 0, -2, -2, -1, 2, false, false, false, false, 0, 0, []⟩] := by decide
  refine ⟨_, mem ▸ List.mem_singleton_self _, by decide, by decide, ?_⟩
  exact (blockSummary_exact freeTables .cancun [0x01] (mem ▸ List.mem_singleton_self _)
    (d := 1) (by decide)).1.mp (by decide)

end Dtvm.Jit.Analyzer
