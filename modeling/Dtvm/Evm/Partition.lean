import Dtvm.Evm.Chunks
import Dtvm.Evm.Steps

/-!
# The gas chunks are a partition of the code

`buildGasBlocks` marks where blocks start and then collects them. Together the blocks have every opcode of the
decoding from left to right exactly once, one block after the other, with a `JUMPDEST` only at the start of a block
and a terminator only at its end (`buildGasBlocks_partition`).
-/

namespace Dtvm

variable {code : Bytes}

/-- The opcodes of the decoding from a program counter up to another. -/
def instructionsFrom (code : Bytes) : Nat → Nat → Nat → List Nat
  | 0, _, _ => []
  | fuel + 1, pc, stop =>
    if pc < stop ∧ pc < code.length then pc :: instructionsFrom code fuel (pc + (opAt code pc).len) stop else []

def instructions (code : Bytes) : List Nat := instructionsFrom code code.length 0 code.length

namespace Straight

variable {pc stop : Nat} {pcs : List Nat}

variable (h : Straight code pc pcs stop)

include h

theorem le : pc ≤ stop := Nat.le_trans (Nat.le_add_right _ _) h.length_le

omit h in
theorem append {mid : Nat} {pcs' : List Nat} (h : Straight code pc pcs mid) (h' : Straight code mid pcs' stop) :
    Straight code pc (pcs ++ pcs') stop := by
  induction h with
  | nil => exact h'
  | cons inside _ ih => exact .cons inside (ih h')

/-- A straight run is what is decoded from its start to its end, or to the end of the code. -/
theorem instructionsFrom_eq {fuel last : Nat} (enough : code.length ≤ pc + fuel)
    (same : last = stop ∨ code.length ≤ last ∧ code.length ≤ stop) : instructionsFrom code fuel pc last = pcs := by
  induction h generalizing fuel with
  | nil pc =>
    cases fuel with
    | zero => rfl
    | succ fuel => exact if_neg (by omega)
  | @cons pc stop pcs inside rest ih =>
    have pos := Opcode.len_pos (opAt code pc)
    have le := rest.le
    cases fuel with
    | zero => exact absurd inside (Nat.not_lt.mpr enough)
    | succ fuel =>
      rw [instructionsFrom, if_pos ⟨by omega, inside⟩, ih (by omega) same]

theorem mem_instruction (start : ∃ n, instrOffset code n = pc) :
    (∀ p ∈ pcs, ∃ n, instrOffset code n = p) ∧ ∃ n, instrOffset code n = stop := by
  induction h with
  | nil => exact ⟨fun p mem => absurd mem List.not_mem_nil, start⟩
  | cons inside _ ih =>
    obtain ⟨n, rfl⟩ := start
    rw [List.forall_mem_cons]
    obtain ⟨rest, last⟩ := ih ⟨n + 1, instrOffset_succ inside⟩
    exact ⟨⟨⟨n, rfl⟩, rest⟩, last⟩

end Straight

namespace Cache

/-! ## Where blocks start -/

/-- The marks are set where they have to be: at `JUMPDEST`s, and after terminators. -/
structure Marked (code : Bytes) (starts : List Bool) : Prop where
  first : 0 < code.length → starts.getD 0 false = true
  dest : ∀ p, IsJumpDest code p → starts.getD p false = true
  after : ∀ n, instrOffset code n < code.length → (opAt code (instrOffset code n)).isGasChunkTerminator = true →
    instrOffset code (n + 1) < code.length → starts.getD (instrOffset code (n + 1)) false = true

theorem getD_set {starts : List Bool} {p q : Nat} (h : starts.getD q false = true ∨ (q = p ∧ p < starts.length)) :
    (starts.set p true).getD q false = true := by
  rw [List.getD_eq_getElem?_getD, List.getElem?_set]
  rcases h with set | ⟨rfl, inside⟩
  · split
    · next here =>
      split
      · rfl
      · next outside =>
        rw [List.getD_eq_getElem?_getD, ← here, List.getElem?_eq_none (Nat.not_lt.mp outside)] at set
        cases set
    · rw [List.getD_eq_getElem?_getD] at set
      exact set
  · rw [if_pos rfl, if_pos inside]
    rfl

theorem markStarts_spec (fuel k : Nat) (starts : List Bool) (length : starts.length = code.length)
    (enough : code.length ≤ instrOffset code k + fuel) :
    (∀ q, starts.getD q false = true → (markStarts code fuel (instrOffset code k) starts).getD q false = true) ∧
      ∀ n, k ≤ n → instrOffset code n < code.length → (opAt code (instrOffset code n) = .jumpdest →
          (markStarts code fuel (instrOffset code k) starts).getD (instrOffset code n) false = true) ∧
        ((opAt code (instrOffset code n)).isGasChunkTerminator = true → instrOffset code (n + 1) < code.length →
          (markStarts code fuel (instrOffset code k) starts).getD (instrOffset code (n + 1)) false = true) := by
  induction fuel generalizing k starts with
  | zero =>
    refine ⟨fun q set => set, fun n le inside => ?_⟩
    exact absurd (Nat.le_trans enough (instrOffset_mono code le)) (Nat.not_le.mpr inside)
  | succ fuel ih =>
    rw [markStarts]
    by_cases inside : instrOffset code k < code.length
    · have pos := Opcode.len_pos (opAt code (instrOffset code k))
      have grows := instrOffset_succ inside
      simp only [if_pos inside]
      rw [← grows]
      -- The marks after this opcode, as the later opcodes see them.
      generalize dests : (if opAt code (instrOffset code k) = .jumpdest then starts.set (instrOffset code k) true
        else starts) = here
      generalize marked : (if (opAt code (instrOffset code k)).isGasChunkTerminator = true then
        here.set (instrOffset code (k + 1)) true else here) = after
      have hereLength : here.length = code.length := by
        rw [← dests]
        split
        · rw [List.length_set, length]
        · exact length
      have afterLength : after.length = code.length := by
        rw [← marked]
        split
        · rw [List.length_set, hereLength]
        · exact hereLength
      obtain ⟨kept, rest⟩ := ih (k + 1) after afterLength (by omega)
      have first (q : Nat) (set : starts.getD q false = true ∨
          (q = instrOffset code k ∧ opAt code (instrOffset code k) = .jumpdest)) : after.getD q false = true := by
        have set : here.getD q false = true := by
          rw [← dests]
          split
          · next dest =>
            refine getD_set (set.imp_right fun h => ⟨h.1, ?_⟩)
            rw [length]
            exact inside
          · next other => exact set.resolve_right fun h => other h.2
        rw [← marked]
        split
        · exact getD_set (.inl set)
        · exact set
      refine ⟨fun q set => kept q (first q (.inl set)), fun n le within => ?_⟩
      rcases Nat.eq_or_lt_of_le le with rfl | later
      · refine ⟨fun dest => kept _ (first _ (.inr ⟨rfl, dest⟩)), fun term next => kept _ ?_⟩
        rw [← marked, if_pos term]
        refine getD_set (.inr ⟨rfl, ?_⟩)
        rw [hereLength]
        exact next
      · exact rest n later within
    · simp only [if_neg inside]
      refine ⟨fun q set => set, fun n le within => ?_⟩
      exact absurd (Nat.lt_of_le_of_lt (instrOffset_mono code le) within) inside

theorem marked (code : Bytes) :
    Marked code (markStarts code code.length 0 ((List.replicate code.length false).set 0 true)) := by
  have length : ((List.replicate code.length false).set 0 true).length = code.length := by
    rw [List.length_set, List.length_replicate]
  obtain ⟨kept, rest⟩ := markStarts_spec code.length 0 ((List.replicate code.length false).set 0 true) length
    (Nat.le_add_left _ _)
  refine ⟨fun pos => kept 0 (getD_set (.inr ⟨rfl, ?_⟩)), ?_, fun n inside => (rest n (Nat.zero_le n) inside).2⟩
  · rw [List.length_replicate]
    exact pos
  · rintro p ⟨⟨n, rfl⟩, inside, dest⟩
    exact (rest n (Nat.zero_le n) inside).1 dest

/-! ## Blocks -/

def GasBlock.opcodes (code : Bytes) (b : GasBlock) : List Nat := instructionsFrom code code.length b.start b.stop

def Contiguous : Nat → List GasBlock → Nat → Prop
  | pc, [], stop => pc = stop
  | pc, b :: blocks, stop => b.start = pc ∧ Contiguous b.stop blocks stop

theorem Contiguous.concat {pc mid : Nat} {blocks : List GasBlock} (h : Contiguous pc blocks mid) {b : GasBlock}
    (start : b.start = mid) : Contiguous pc (blocks ++ [b]) b.stop := by
  induction blocks generalizing pc with
  | nil => exact ⟨start.trans (Eq.symm h), rfl⟩
  | cons a blocks ih => exact ⟨h.1, ih h.2⟩

/-- A block is a run of opcodes with a `JUMPDEST` only at its start and a terminator only at its end. -/
structure IsPart (code : Bytes) (cost : UInt8 → Nat) (b : GasBlock) : Prop where
  inside : b.start < code.length
  straight : Straight code b.start (b.opcodes code) b.stop
  nonempty : b.start < b.stop
  dest : ∀ p ∈ b.opcodes code, opAt code p = .jumpdest → p = b.start
  last : ∀ p ∈ b.opcodes code, (opAt code p).isGasChunkTerminator = true → p + (opAt code p).len = b.stop
  cost : b.cost = baseCosts code cost (b.opcodes code) % 2 ^ 64

/-- A run that the inner loop has collected from a program counter on. -/
structure Collects (code : Bytes) (cost : UInt8 → Nat) (starts : List Bool) (owed pc stop total : Nat)
    (pcs : List Nat) : Prop where
  straight : Straight code pc pcs stop
  unmarked : ∀ p ∈ pcs, starts.getD p false = false
  last : ∀ p ∈ pcs, (opAt code p).isGasChunkTerminator = true → p + (opAt code p).len = stop
  cost : total = (owed + baseCosts code cost pcs) % 2 ^ 64
  stops : code.length ≤ stop ∨ starts.getD stop false = true ∨
    ∃ p ∈ pcs, (opAt code p).isGasChunkTerminator = true

def GasBlock.take (code : Bytes) (cost : UInt8 → Nat) (pc : Nat) (block : GasBlock) : GasBlock :=
  { block with
    prevPc := block.lastPc, prevOpcode := block.lastOpcode
    lastPc := pc % 2 ^ 32, lastOpcode := byteAt code pc
    cost := (block.cost + cost (byteAt code pc)) % 2 ^ 64 }

section Loops

variable (code) (cost : UInt8 → Nat) (starts : List Bool)

theorem Collects.nothing {owed pc : Nat} (bound : owed < 2 ^ 64)
    (stops : code.length ≤ pc ∨ starts.getD pc false = true) : Collects code cost starts owed pc pc owed [] := by
  refine ⟨.nil pc, by simp, by simp, ?_, stops.imp_right .inl⟩
  rw [baseCosts_nil, Nat.add_zero, Nat.mod_eq_of_lt bound]

variable (start : Nat)

theorem blockLoop_collects (fuel pc : Nat) (block : GasBlock) (bound : block.cost < 2 ^ 64) (past : start < pc)
    (enough : code.length ≤ pc + fuel) : ∃ pcs, Collects code cost starts block.cost pc
      (blockLoop code cost starts start fuel pc block).1 (blockLoop code cost starts start fuel pc block).2.cost pcs := by
  induction fuel generalizing pc block with
  | zero => exact ⟨[], .nothing code cost starts bound (.inl enough)⟩
  | succ fuel ih =>
    rw [blockLoop]
    by_cases inside : pc < code.length
    · rw [if_pos inside]
      by_cases marked : starts.getD pc false = true
      · rw [if_pos ⟨Nat.ne_of_gt past, marked⟩]
        exact ⟨[], .nothing code cost starts bound (.inr marked)⟩
      · rw [if_neg fun h => marked h.2]
        have unmarked := Bool.eq_false_of_not_eq_true marked
        have pos := Opcode.len_pos (opAt code pc)
        dsimp only
        split
        · next term =>
          refine ⟨[pc], .cons inside (.nil _), ?_, ?_, ?_, .inr (.inr ⟨pc, List.mem_singleton_self _, term⟩)⟩
          · rw [List.forall_mem_singleton]
            exact unmarked
          · rw [List.forall_mem_singleton]
            exact fun _ => rfl
          · rw [baseCosts_cons, baseCosts_nil, Nat.add_zero]
        · next plain =>
          obtain ⟨pcs, rest⟩ := ih (pc + (opAt code pc).len) (block.take code cost pc) (Nat.mod_lt _ (by decide))
            (by omega) (by omega)
          refine ⟨pc :: pcs, .cons inside rest.straight, ?_, ?_, ?_, rest.stops.imp_right (Or.imp_right ?_)⟩
          · rw [List.forall_mem_cons]
            exact ⟨unmarked, rest.unmarked⟩
          · rw [List.forall_mem_cons]
            exact ⟨fun term => absurd term plain, rest.last⟩
          · refine rest.cost.trans ?_
            rw [GasBlock.take, baseCosts_cons, Nat.mod_add_mod, Nat.add_assoc]
          · rintro ⟨p, mem, term⟩
            exact ⟨p, List.mem_cons_of_mem _ mem, term⟩
    · rw [if_neg inside]
      exact ⟨[], .nothing code cost starts bound (.inl (Nat.not_lt.mp inside))⟩

theorem blockLoop_first (inside : start < code.length) {block : GasBlock} (fresh : block.cost = 0)
    {r : Nat × GasBlock} (ran : blockLoop code cost starts start code.length start block = r) :
    ∃ pcs, Straight code start (start :: pcs) r.1 ∧ (∀ p ∈ pcs, starts.getD p false = false) ∧
      (∀ p ∈ start :: pcs, (opAt code p).isGasChunkTerminator = true → p + (opAt code p).len = r.1) ∧
      r.2.cost = baseCosts code cost (start :: pcs) % 2 ^ 64 ∧ (code.length ≤ r.1 ∨
        starts.getD r.1 false = true ∨ ∃ p ∈ start :: pcs, (opAt code p).isGasChunkTerminator = true) := by
  obtain ⟨fuel, length⟩ := Nat.exists_eq_succ_of_ne_zero (Nat.ne_zero_of_lt inside)
  have pos := Opcode.len_pos (opAt code start)
  generalize counted : code.length = count at length ran
  subst length ran
  rw [blockLoop, if_pos (counted ▸ inside), if_neg fun h => h.1 rfl]
  dsimp only
  split
  · next term =>
    refine ⟨[], .cons inside (.nil _), by simp, ?_, by rw [fresh, Nat.zero_add, baseCosts_cons, baseCosts_nil, Nat.add_zero],
      .inr (.inr ⟨start, List.mem_cons_self, term⟩)⟩
    rw [List.forall_mem_singleton]
    exact fun _ => rfl
  · next plain =>
    obtain ⟨pcs, rest⟩ := blockLoop_collects code cost starts start fuel (start + (opAt code start).len)
      (block.take code cost start) (Nat.mod_lt _ (by decide)) (by omega) (by omega)
    refine ⟨pcs, .cons inside rest.straight, rest.unmarked, ?_, ?_, ?_⟩
    · rw [List.forall_mem_cons]
      exact ⟨fun term => absurd term plain, rest.last⟩
    · refine rest.cost.trans ?_
      rw [GasBlock.take, fresh, Nat.zero_add, baseCosts_cons, Nat.mod_add_mod]
    · rw [← counted]
      refine rest.stops.imp_right (Or.imp_right ?_)
      rintro ⟨p, mem, term⟩
      exact ⟨p, List.mem_cons_of_mem _ mem, term⟩

/-- Blocks that have been collected up to a program counter. -/
structure Partitioned (blocks : List GasBlock) (pc : Nat) : Prop where
  contiguous : Contiguous 0 blocks pc
  parts : ∀ b ∈ blocks, IsPart code cost b
  straight : Straight code 0 (blocks.flatMap (GasBlock.opcodes code)) pc

variable {code cost starts}

theorem Partitioned.collect (marked : Marked code starts) (fits : code.length + 33 ≤ 2 ^ 32) {pc : Nat}
    (inside : pc < code.length) {blocks : List GasBlock} (h : Partitioned code cost blocks pc) {r : Nat × GasBlock}
    (ran : blockLoop code cost starts pc code.length pc { start := pc } = r) :
    Partitioned code cost (blocks ++ [{ r.2 with stop := r.1 }]) r.1 ∧ pc < r.1 ∧ r.1 < 2 ^ 32 ∧
      (r.1 < code.length → starts.getD r.1 false = true) := by
  have fixed := @blockLoop_start code cost starts pc code.length pc { start := pc }
  obtain ⟨pcs, straight, unmarked, last, total, stops⟩ := blockLoop_first code cost starts pc inside rfl ran
  rw [ran] at fixed
  obtain ⟨stop, block⟩ := r
  have fixed : block.start = pc := fixed
  have instruction := (h.straight.mem_instruction ⟨0, rfl⟩).2
  obtain ⟨instructions, ends⟩ := straight.mem_instruction instruction
  have opcodes : GasBlock.opcodes code { block with stop } = pc :: pcs := by
    rw [GasBlock.opcodes, fixed]
    exact straight.instructionsFrom_eq (Nat.le_add_left _ _) (.inl rfl)
  have longer := straight.length_le
  rw [List.length_cons] at longer
  have below := straight.stop_le (by omega)
  refine ⟨⟨h.contiguous.concat fixed, ?_, ?_⟩, by omega, by omega, fun within => ?_⟩
  · rw [List.forall_mem_append, List.forall_mem_singleton]
    refine ⟨h.parts, fixed ▸ inside, ?_, ?_, ?_, ?_, ?_⟩
    · rw [opcodes, fixed]
      exact straight
    · show block.start < stop
      omega
    · rw [opcodes, List.forall_mem_cons]
      refine ⟨fun _ => fixed.symm, fun p mem dest => ?_⟩
      have set := marked.dest p ⟨instructions p (List.mem_cons_of_mem _ mem),
        (straight.mem_inside p (List.mem_cons_of_mem _ mem)).1, dest⟩
      rw [unmarked p mem] at set
      cases set
    · rw [opcodes]
      exact last
    · rw [opcodes]
      exact total
  · rw [List.flatMap_append, List.flatMap_singleton, opcodes]
    exact h.straight.append straight
  · rcases stops with past | set | ⟨p, mem, term⟩
    · exact absurd within (Nat.not_lt.mpr past)
    · exact set
    · obtain ⟨n, rfl⟩ := instructions p mem
      have inside' := (straight.mem_inside _ mem).1
      have next : instrOffset code (n + 1) = stop := (instrOffset_succ inside').trans (last _ mem term)
      have within : stop < code.length := within
      show starts.getD stop false = true
      rw [← next] at within ⊢
      exact marked.after n inside' term within

theorem blocksLoop_partition (marked : Marked code starts) (fits : code.length + 33 ≤ 2 ^ 32) (fuel pc : Nat)
    (blocks : List GasBlock) (h : Partitioned code cost blocks pc)
    (set : pc < code.length → starts.getD pc false = true) (enough : code.length ≤ pc + fuel) :
    ∃ stop, code.length ≤ stop ∧ Partitioned code cost (blocksLoop code cost starts fuel pc blocks) stop := by
  induction fuel generalizing pc blocks with
  | zero => exact ⟨pc, enough, h⟩
  | succ fuel ih =>
    rw [blocksLoop]
    by_cases inside : pc < code.length
    · have small : pc % 2 ^ 32 = pc := Nat.mod_eq_of_lt (by omega)
      rw [if_pos inside, if_neg (by rw [set inside]; decide)]
      dsimp only
      rw [small, if_neg (Nat.not_le.mpr inside)]
      obtain ⟨next, later, below, marks⟩ := h.collect marked fits inside rfl
      rw [Nat.mod_eq_of_lt below]
      exact ih _ _ next marks (by omega)
    · rw [if_neg inside]
      exact ⟨pc, Nat.not_lt.mp inside, h⟩

variable (code cost)

/-- **The gas blocks are a partition of the code.** -/
theorem buildGasBlocks_partition (fits : code.length + 33 ≤ 2 ^ 32) :
    (buildGasBlocks code cost).flatMap (GasBlock.opcodes code) = instructions code ∧
      ∃ stop, code.length ≤ stop ∧ Partitioned code cost (buildGasBlocks code cost) stop := by
  have start : Partitioned code cost [] 0 := ⟨rfl, by simp, .nil 0⟩
  obtain ⟨stop, past, h⟩ := blocksLoop_partition (marked code) fits code.length 0 [] start
    (fun inside => (marked code).first inside) (Nat.le_add_left _ _)
  refine ⟨(h.straight.instructionsFrom_eq (Nat.le_add_left _ _) (.inr ⟨Nat.le_refl _, past⟩)).symm, stop, past, h⟩

end Loops

end Cache

end Dtvm
