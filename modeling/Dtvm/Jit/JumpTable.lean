import Dtvm.Evm.Cache
import Dtvm.Search.Cases
import Mathlib.Data.Nat.Basic

/-!
# The jump table of compiled code

`EVMMirBuilder::createJumpTable` scans the code for its `JUMPDEST`s and registers a block for each:
the body that a run of adjacent `JUMPDEST`s shares, or, with gas metering, a thunk that pays for the
part of the run it skips and goes on to the body. Which program counters it registers is settled here
(`mem_jumpDestTable_iff`): those at which decoding the code from its start meets a `JUMPDEST`. What the
thunks charge is not modelled.
-/

namespace Dtvm

/-! ## Jump destinations -/

/-- The offset of the `n`-th instruction, where the code has one. -/
def instrOffset (code : Bytes) : Nat → Nat
  | 0 => 0
  | n + 1 =>
    let pc := instrOffset code n
    if pc < code.length then pc + (opAt code pc).len else pc

/-- A `JUMPDEST` that is an instruction and not the data of a `PUSH`. -/
def IsJumpDest (code : Bytes) (pc : Nat) : Prop :=
  (∃ n, instrOffset code n = pc) ∧ pc < code.length ∧ opAt code pc = .jumpdest

namespace Jit

/-! ## The scan -/

inductive Entry where
  /-- The body shared by the run of `JUMPDEST`s that ends at an offset. -/
  | body (rangeEnd : Nat)
  /-- The thunk of a destination before the end of its run. -/
  | thunk (pc : Nat)
deriving DecidableEq, Repr

/-- The inner loop: the end of the run of `JUMPDEST`s. -/
def rangeEnd (code : Bytes) : Nat → Nat → Nat
  | 0, pc => pc
  | fuel + 1, pc =>
    if pc + 1 < code.length ∧ byteAt code (pc + 1) = 0x5b then rangeEnd code fuel (pc + 1) else pc

def runEntries (metering : Bool) (first last : Nat) : List (Nat × Entry) :=
  if metering = false ∨ first = last then
    (List.range' first (last + 1 - first)).map fun pc => (pc, .body last)
  else
    (List.range' first (last - first)).map (fun pc => (pc, .thunk pc)) ++ [(last, .body last)]

/-- The outer loop. The destinations come in increasing order, so that the map is a list. -/
def tableLoop (code : Bytes) (metering : Bool) :
    Nat → Nat → List (Nat × Entry) → List (Nat × Entry)
  | 0, _, table => table
  | fuel + 1, pc, table =>
    if pc < code.length then
      let b := byteAt code pc
      if b = 0x5b then
        let last := rangeEnd code code.length pc
        tableLoop code metering fuel (last + 1) (table ++ runEntries metering pc last)
      else if 0x5f ≤ b ∧ b ≤ 0x7f then
        tableLoop code metering fuel (pc + (b.toNat + 1 - 0x60) + 1) table
      else tableLoop code metering fuel (pc + 1) table
    else table

def jumpDestTable (code : Bytes) (metering : Bool) : List (Nat × Entry) :=
  tableLoop code metering code.length 0 []

end Jit

/-! ## Instruction offsets -/

section Offsets

variable {code : Bytes}

theorem instrOffset_succ {n : Nat} (inside : instrOffset code n < code.length) :
    instrOffset code (n + 1) = instrOffset code n + (opAt code (instrOffset code n)).len :=
  if_pos inside

theorem instrOffset_le_succ (code : Bytes) (n : Nat) : instrOffset code n ≤ instrOffset code (n + 1) := by
  rw [instrOffset]
  split
  · exact Nat.le_add_right _ _
  · exact Nat.le_refl _

theorem instrOffset_mono (code : Bytes) : Monotone (instrOffset code) :=
  monotone_nat_of_le_succ (instrOffset_le_succ code)

theorem eq_of_inside {n m : Nat} (inside : instrOffset code n < code.length)
    (from_ : instrOffset code n ≤ instrOffset code m)
    (below : instrOffset code m < instrOffset code n + (opAt code (instrOffset code n)).len) :
    instrOffset code m = instrOffset code n := by
  rcases Nat.lt_or_ge n m with later | earlier
  · have := instrOffset_mono code later
    rw [Nat.succ_eq_add_one, instrOffset_succ inside] at this
    omega
  · exact Nat.le_antisymm (instrOffset_mono code earlier) from_

theorem ofByte_scanned (b : UInt8) : (Opcode.ofByte b = .jumpdest ↔ b = 0x5b) ∧
    (0x5f ≤ b ∧ b ≤ 0x7f → (Opcode.ofByte b).len = b.toNat + 1 - 0x60 + 1) ∧
    (¬ (0x5f ≤ b ∧ b ≤ 0x7f) → (Opcode.ofByte b).len = 1) := by
  have all : ∀ n : Fin 256, (Opcode.ofByte (UInt8.ofNat n) = .jumpdest ↔ UInt8.ofNat n = 0x5b) ∧
      (0x5f ≤ UInt8.ofNat n ∧ UInt8.ofNat n ≤ 0x7f →
        (Opcode.ofByte (UInt8.ofNat n)).len = (UInt8.ofNat n).toNat + 1 - 0x60 + 1) ∧
      (¬ (0x5f ≤ UInt8.ofNat n ∧ UInt8.ofNat n ≤ 0x7f) →
        (Opcode.ofByte (UInt8.ofNat n)).len = 1) := by
    decide +kernel
  have own := all ⟨b.toNat, b.toNat_lt⟩
  simpa using own

end Offsets

namespace Jit

variable {code : Bytes} {metering : Bool}

/-! ## What the scan registers -/

theorem rangeEnd_spec (code : Bytes) (fuel pc : Nat) : pc ≤ rangeEnd code fuel pc ∧
      ∀ p, pc < p → p ≤ rangeEnd code fuel pc → p < code.length ∧ byteAt code p = 0x5b := by
  induction fuel generalizing pc with
  | zero => exact ⟨Nat.le_refl _, fun p above below => absurd above (Nat.not_lt.mpr below)⟩
  | succ fuel ih =>
    unfold rangeEnd
    split
    · rename_i more
      obtain ⟨le, run⟩ := ih (pc + 1)
      refine ⟨Nat.le_of_succ_le le, fun p above below => ?_⟩
      rcases Nat.eq_or_lt_of_le above with here | later
      · exact here ▸ more
      · exact run p later below
    · exact ⟨Nat.le_refl _, fun p above below => absurd above (Nat.not_lt.mpr below)⟩

theorem keys_runEntries (metering : Bool) {first last : Nat} (le : first ≤ last) :
    (runEntries metering first last).map Prod.fst = List.range' first (last + 1 - first) := by
  have columns : ∀ (entry : Nat → Entry) (pcs : List Nat),
      (pcs.map fun pc => (pc, entry pc)).map Prod.fst = pcs := by
    intro entry pcs
    rw [List.map_map]
    exact List.map_id pcs
  unfold runEntries
  split
  · exact columns (fun _ => .body last) _
  · have parts : last + 1 - first = (last - first) + 1 := by omega
    have final : first + 1 * (last - first) = last := by omega
    rw [List.map_append, columns .thunk, parts, List.range'_concat, final]
    rfl

/-- The table holds the destinations before a program counter. -/
structure Registers (code : Bytes) (table : List (Nat × Entry)) (pc : Nat) : Prop where
  sorted : Search.Sorted table
  mem : ∀ p, p ∈ table.map Prod.fst ↔ IsJumpDest code p ∧ p < pc

theorem instrOffset_run {n last : Nat} (run : ∀ p, instrOffset code n ≤ p → p ≤ last →
      p < code.length ∧ opAt code p = .jumpdest) (k : Nat) (within : instrOffset code n + k ≤ last + 1) :
    instrOffset code (n + k) = instrOffset code n + k := by
  induction k with
  | zero => rfl
  | succ k ih =>
    have here := ih (by omega)
    obtain ⟨inside, jumpdest⟩ := run (instrOffset code n + k) (by omega) (by omega)
    rw [← Nat.add_assoc, instrOffset_succ (by rw [here]; exact inside), here, jumpdest]
    rfl

namespace Registers

variable {table : List (Nat × Entry)} {n : Nat}

variable (h : Registers code table (instrOffset code n))

include h

theorem skip (inside : instrOffset code n < code.length) (other : opAt code (instrOffset code n) ≠ .jumpdest) :
    Registers code table (instrOffset code (n + 1)) := by
  refine ⟨h.sorted, fun p => (h.mem p).trans ⟨?_, ?_⟩⟩
  · rintro ⟨dest, below⟩
    exact ⟨dest, Nat.lt_of_lt_of_le below (instrOffset_le_succ code n)⟩
  · rintro ⟨dest, below⟩
    refine ⟨dest, Nat.lt_of_not_le fun above => ?_⟩
    obtain ⟨⟨m, rfl⟩, -, jumpdest⟩ := dest
    rw [instrOffset_succ inside] at below
    rw [eq_of_inside inside above below] at jumpdest
    exact other jumpdest

theorem run (metering : Bool) {last : Nat} (le : instrOffset code n ≤ last)
    (run : ∀ p, instrOffset code n ≤ p → p ≤ last → p < code.length ∧ opAt code p = .jumpdest) :
    Registers code (table ++ runEntries metering (instrOffset code n) last) (last + 1) := by
  have keys := keys_runEntries metering le
  have new : ∀ p, p ∈ (runEntries metering (instrOffset code n) last).map Prod.fst ↔
      instrOffset code n ≤ p ∧ p ≤ last := by
    intro p
    rw [keys, List.mem_range'_1]
    omega
  constructor
  · apply List.pairwise_append.mpr
    refine ⟨h.sorted, ?_, fun a old b young => ?_⟩
    · apply List.pairwise_map.mp
      rw [keys]
      exact List.pairwise_lt_range'
    · have below := ((h.mem a.1).mp (List.mem_map_of_mem old)).2
      have above := ((new b.1).mp (List.mem_map_of_mem young)).1
      exact Nat.lt_of_lt_of_le below above
  · intro p
    rw [List.map_append, List.mem_append, h.mem, new]
    constructor
    · rintro (⟨dest, below⟩ | ⟨above, below⟩)
      · exact ⟨dest, by omega⟩
      · obtain ⟨inside, jumpdest⟩ := run p above below
        refine ⟨⟨⟨n + (p - instrOffset code n), ?_⟩, inside, jumpdest⟩, by omega⟩
        rw [instrOffset_run run _ (by omega)]
        omega
    · rintro ⟨dest, below⟩
      by_cases above : instrOffset code n ≤ p
      · exact .inr ⟨above, by omega⟩
      · exact .inl ⟨dest, by omega⟩

end Registers

/-- **The scan.** -/
theorem tableLoop_registers (fuel n : Nat) (table : List (Nat × Entry)) (h : Registers code table (instrOffset code n))
    (enough : code.length ≤ instrOffset code n + fuel) :
    Registers code (tableLoop code metering fuel (instrOffset code n) table) code.length := by
  have done : ∀ {table n}, Registers code table (instrOffset code n) →
      code.length ≤ instrOffset code n → Registers code table code.length := by
    intro table n h past
    refine ⟨h.sorted, fun p => (h.mem p).trans ⟨?_, ?_⟩⟩
    · rintro ⟨dest, -⟩
      exact ⟨dest, dest.2.1⟩
    · rintro ⟨dest, below⟩
      exact ⟨dest, Nat.lt_of_lt_of_le below past⟩
  induction fuel generalizing n table with
  | zero => exact done h enough
  | succ fuel ih =>
    unfold tableLoop
    by_cases inside : instrOffset code n < code.length
    · obtain ⟨isDest, push, plain⟩ := ofByte_scanned (byteAt code (instrOffset code n))
      have advance := instrOffset_succ inside
      have step := Opcode.len_pos (opAt code (instrOffset code n))
      rw [if_pos inside]
      by_cases dest : byteAt code (instrOffset code n) = 0x5b
      · simp only [dest, if_true]
        obtain ⟨le, others⟩ := rangeEnd_spec code code.length (instrOffset code n)
        generalize rangeEnd code code.length (instrOffset code n) = last at le others
        have run : ∀ p, instrOffset code n ≤ p → p ≤ last →
            p < code.length ∧ opAt code p = .jumpdest := by
          intro p above below
          rcases Nat.eq_or_lt_of_le above with here | later
          · exact here ▸ ⟨inside, isDest.mpr dest⟩
          · obtain ⟨inside', byte⟩ := others p later below
            exact ⟨inside', (ofByte_scanned (byteAt code p)).1.mpr byte⟩
        have next : instrOffset code (n + (last + 1 - instrOffset code n)) = last + 1 := by
          rw [instrOffset_run run _ (by omega)]
          omega
        have registered := h.run metering le run
        rw [← next] at registered ⊢
        exact ih _ _ registered (by omega)
      · have other : opAt code (instrOffset code n) ≠ .jumpdest := fun same => dest (isDest.mp same)
        have skipped := h.skip inside other
        simp only [dest, if_false]
        split
        · rename_i isPush
          have next : instrOffset code n + ((byteAt code (instrOffset code n)).toNat + 1 - 0x60) + 1 =
              instrOffset code (n + 1) := by
            rw [advance, show (opAt code (instrOffset code n)).len = _ from push isPush]
            rfl
          rw [next]
          exact ih (n + 1) table skipped (by omega)
        · rename_i notPush
          have next : instrOffset code n + 1 = instrOffset code (n + 1) := by
            rw [advance, show (opAt code (instrOffset code n)).len = 1 from plain notPush]
          rw [next]
          exact ih (n + 1) table skipped (by omega)
    · rw [if_neg inside]
      exact done h (Nat.not_lt.mp inside)

theorem jumpDestTable_registers (code : Bytes) (metering : Bool) :
    Registers code (jumpDestTable code metering) code.length :=
  tableLoop_registers code.length 0 [] ⟨.nil, fun p => by simp [instrOffset]⟩ (Nat.le_add_left _ _)

/-- **The table registers exactly the jump destinations.** -/
theorem mem_jumpDestTable_iff (code : Bytes) (metering : Bool) (pc : Nat) :
    pc ∈ (jumpDestTable code metering).map Prod.fst ↔ IsJumpDest code pc := by
  rw [(jumpDestTable_registers code metering).mem]
  exact ⟨And.left, fun dest => ⟨dest, dest.2.1⟩⟩

end Jit

end Dtvm
