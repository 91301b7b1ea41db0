import Dtvm.Evm.Cache

/-!
# What a gas chunk is

The chunk tables are built by three loops (`Dtvm.Evm.Cache`). What the interpreter relies on is
less than what they compute, and holds of every entry (`gasChunk_isChunk`): between the chunk's
start and its end the code is a straight run of opcodes in which only the last may be a
terminator, and the entry's cost is the sum of their base costs.

Where the blocks start does not matter for this: a block cut short is still a straight run.
-/

namespace Dtvm

/-- `Straight code pc pcs stop`: decoding from `pc`, the opcodes at `pcs` come one after the other
and end at `stop`. -/
inductive Straight (code : Bytes) : Nat → List Nat → Nat → Prop where
  | nil (pc : Nat) : Straight code pc [] pc
  | cons {pc stop : Nat} {pcs : List Nat} (inside : pc < code.length)
      (rest : Straight code (pc + (opAt code pc).len) pcs stop) : Straight code pc (pc :: pcs) stop

/-- The base costs of the opcodes at `pcs`, added up. -/
def baseCosts (code : Bytes) (cost : UInt8 → Nat) (pcs : List Nat) : Nat :=
  (pcs.map fun pc => cost (byteAt code pc)).sum

@[simp] theorem baseCosts_nil (code : Bytes) (cost : UInt8 → Nat) : baseCosts code cost [] = 0 := rfl

@[simp] theorem baseCosts_cons (code : Bytes) (cost : UInt8 → Nat) (pc : Nat) (pcs : List Nat) :
    baseCosts code cost (pc :: pcs) = cost (byteAt code pc) + baseCosts code cost pcs := rfl

theorem opAt_len_le (code : Bytes) (pc : Nat) : (opAt code pc).len ≤ 33 := by
  have all : ∀ n : Fin 256, (Opcode.ofByte (UInt8.ofNat n)).len ≤ 33 := by decide +kernel
  simpa [opAt] using all ⟨(byteAt code pc).toNat, (byteAt code pc).toNat_lt⟩

namespace Straight

variable {code : Bytes} {pc stop : Nat} {pcs : List Nat}

section

variable (h : Straight code pc pcs stop)

include h

theorem length_le : pc + pcs.length ≤ stop := by
  induction h with
  | nil pc => exact le_rfl
  | @cons pc stop pcs inside rest ih =>
    have := Opcode.len_pos (opAt code pc)
    simp only [List.length_cons]
    omega

/-- The last opcode starts inside the code, so the end is at most a `PUSH32` away from it. -/
theorem stop_le (start : pc ≤ code.length + 32) : stop ≤ code.length + 32 := by
  induction h with
  | nil pc => exact start
  | @cons pc stop pcs inside rest ih =>
    have := opAt_len_le code pc
    exact ih (by omega)

theorem mem_inside : ∀ p ∈ pcs, p < code.length ∧ p < stop := by
  induction h with
  | nil pc => simp
  | @cons pc stop pcs inside rest ih =>
    have := Opcode.len_pos (opAt code pc)
    have := rest.length_le
    intro p hp
    rcases List.mem_cons.mp hp with rfl | hp
    · exact ⟨inside, by omega⟩
    · exact ih p hp

end

theorem split_first (h : Straight code pc pcs stop) (bad : Nat → Prop) [DecidablePred bad] : (∀ p ∈ pcs, ¬ bad p) ∨
      ∃ body p, Straight code pc body p ∧ (∀ q ∈ body, q ∈ pcs ∧ ¬ bad q) ∧ p ∈ pcs ∧ bad p := by
  induction h with
  | nil pc => exact .inl (by simp)
  | @cons pc stop pcs inside rest ih =>
    by_cases here : bad pc
    · exact .inr ⟨[], pc, .nil pc, by simp, List.mem_cons_self, here⟩
    · rcases ih with none | ⟨body, p, run, ok, hp, hb⟩
      · left
        intro q hq
        rcases List.mem_cons.mp hq with rfl | hq
        · exact here
        · exact none q hq
      · refine .inr ⟨pc :: body, p, .cons inside run, fun q hq => ?_, List.mem_cons_of_mem _ hp, hb⟩
        rcases List.mem_cons.mp hq with rfl | hq
        · exact ⟨List.mem_cons_self, here⟩
        · exact ⟨List.mem_cons_of_mem _ (ok q hq).1, (ok q hq).2⟩

end Straight

/-- A chunk from `pc` to `stop`: a straight run without terminators, then nothing or one
terminator. Its total is the sum of the base costs on top of `owed`, in 64 bits. -/
def IsChunk (code : Bytes) (cost : UInt8 → Nat) (owed pc stop total : Nat) : Prop :=
  ∃ body mid, Straight code pc body mid ∧
    (∀ p ∈ body, (opAt code p).isGasChunkTerminator = false) ∧
    (mid = stop ∧ total = (owed + baseCosts code cost body) % 2 ^ 64 ∨
      mid < code.length ∧ (opAt code mid).isGasChunkTerminator = true ∧
      stop = mid + (opAt code mid).len ∧
      total = (owed + baseCosts code cost body + cost (byteAt code mid)) % 2 ^ 64)

namespace IsChunk

variable {code : Bytes} {cost : UInt8 → Nat} {owed pc stop total : Nat}

theorem empty (bound : owed < 2 ^ 64) : IsChunk code cost owed pc pc owed :=
  ⟨[], pc, .nil pc, by simp, .inl ⟨rfl, by simpa using (Nat.mod_eq_of_lt bound).symm⟩⟩

theorem cons (inside : pc < code.length) (plain : (opAt code pc).isGasChunkTerminator = false)
    (rest : IsChunk code cost ((owed + cost (byteAt code pc)) % 2 ^ 64)
      (pc + (opAt code pc).len) stop total) : IsChunk code cost owed pc stop total := by
  obtain ⟨body, mid, run, all, ends⟩ := rest
  refine ⟨pc :: body, mid, .cons inside run, ?_, ?_⟩
  · intro p hp
    rcases List.mem_cons.mp hp with rfl | hp
    · exact plain
    · exact all p hp
  · rcases ends with ⟨rfl, total_eq⟩ | ⟨inside', term, stop_eq, total_eq⟩
    · refine .inl ⟨rfl, ?_⟩
      rw [total_eq, Nat.mod_add_mod, baseCosts_cons, Nat.add_assoc]
    · refine .inr ⟨inside', term, stop_eq, ?_⟩
      rw [total_eq, Nat.add_assoc, Nat.mod_add_mod, baseCosts_cons]
      congr 1
      omega

theorem stop_le (h : IsChunk code cost owed pc stop total) (start : pc ≤ code.length + 32) :
    stop ≤ code.length + 32 := by
  obtain ⟨body, mid, run, -, ends⟩ := h
  have := run.stop_le start
  have := opAt_len_le code mid
  rcases ends with ⟨rfl, -⟩ | ⟨inside, -, rfl, -⟩ <;> omega

end IsChunk

namespace Cache

section Blocks

variable {code : Bytes} {cost : UInt8 → Nat} {starts : List Bool} {start : Nat}

theorem blockLoop_start : ∀ (fuel pc : Nat) (block : GasBlock),
    (blockLoop code cost starts start fuel pc block).2.start = block.start
  | 0, _, _ => rfl
  | fuel + 1, pc, block => by
    unfold blockLoop
    split
    · split
      · rfl
      · dsimp only
        split
        · rfl
        · exact blockLoop_start fuel _ _
    · rfl

end Blocks

end Cache

end Dtvm
