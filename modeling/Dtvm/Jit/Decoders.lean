import Dtvm.Jit.BlockCuts
import Dtvm.Jit.Immediates

/-!
# All decoders agree

Five loops go through a code and take its `JUMPDEST`s out, each with its own way past the immediates: the
cache of the interpreter, the analyzer's table of runs, the table of jump targets of the compiled code, and the
visitor, against the decoding from left to right (`instrOffset`). Three loaders take the immediate of a `PUSH`.
-/

namespace Dtvm.Jit

open Analyzer

theorem immediates_agree (code : Bytes) (pc : Nat) {size : Nat} (fits : size ≤ 32) :
    (loadPushValue code pc size).toNat = beNat (immediate code pc size) ∧
      (ofLimbs (handlePush code pc size)).toNat = beNat (immediate code pc size) ∧
      ((AbstractValue.constFromPush code (pc + 1) size).knownConst = true →
        (AbstractValue.constFromPush code (pc + 1) size).fitsU64 = true →
        (AbstractValue.constFromPush code (pc + 1) size).low = beNat (immediate code pc size)) := by
  refine ⟨?_, toNat_handlePush code pc fits, fun known fits64 => ?_⟩
  · rw [loadPushValue_eq code pc fits]
    exact toNat_loadPushValue code pc fits
  · rw [← toNat_loadPushValue code pc fits]
    exact (AbstractValue.constFromPush_describes code pc fits known fits64).symm

/-- **All decoders agree** on the destinations and on the immediates. -/
theorem decoders_agree (metering : Bool) (tables : CompilerTables) (rev : Revision) (code : Bytes) :
    (∀ pc, (Cache.buildJumpDestMapAndPushCache code).jumpDest pc = true ↔ IsJumpDest code pc) ∧
      (∀ pc, pc ∈ (buildJumpDestRuns code).map Prod.fst ↔ IsJumpDest code pc) ∧
      (∀ pc, pc ∈ (jumpDestTable code metering).map Prod.fst ↔ IsJumpDest code pc) ∧
      (∃ fuel a, (∀ k, fuel ≤ k → analyze tables.toStackTables rev code k = some a) ∧
        ∃ v, decode tables rev code a.blockInfos = some v ∧ ∀ pc, pc ∈ v.joined ↔ IsJumpDest code pc) ∧
      ∀ pc, (∃ n, instrOffset code n = pc) → pc < code.length → (∀ size, opAt code pc = .push size →
          (Cache.buildJumpDestMapAndPushCache code).pushValue pc = loadPushValue code pc size) ∧
        ∀ size, opAt code pc = .push size ∨ (opAt code pc = .push0 ∧ size = 0) →
          (loadPushValue code pc size).toNat = beNat (immediate code pc size) ∧
          (ofLimbs (handlePush code pc size)).toNat = beNat (immediate code pc size) ∧
          ((AbstractValue.constFromPush code (pc + 1) size).knownConst = true →
            (AbstractValue.constFromPush code (pc + 1) size).fitsU64 = true →
            (AbstractValue.constFromPush code (pc + 1) size).low = beNat (immediate code pc size)) := by
  refine ⟨Cache.decoded_jumpDest code, (buildJumpDestRuns_spec code).1, mem_jumpDestTable_iff code metering, ?_, ?_⟩
  · obtain ⟨fuel, a, analysis, v, eq, -, -, joined⟩ := decode_runs tables rev code
    exact ⟨fuel, a, analysis, v, eq, joined⟩
  · rintro pc ⟨n, rfl⟩ inside
    refine ⟨fun size push => ?_, fun size push => immediates_agree code _ ?_⟩
    · rw [Cache.decoded_pushValue inside push, loadPushValue_eq code _ (push_le push)]
    · rcases push with push | ⟨-, rfl⟩
      · exact push_le push
      · exact Nat.zero_le _

end Dtvm.Jit
