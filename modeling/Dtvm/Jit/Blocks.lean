import Dtvm.Evm.Steps
import Dtvm.Jit.Analyzer

/-!
# The blocks of the analyzer

What `buildBlocks` guarantees. A destination is named by the end of its run of `JUMPDEST`s
(`canonical_endsRun`). Blocks come in increasing order, and what is scanned for one lies before the entry
of the next (`Before`). Every destination has a block, named by the end of its run, and so does what
follows a block (`Layout`).

A scan is followed from any of its points (`scanBody`): it is the same loop from there on.
-/

namespace Dtvm.Jit.Analyzer

variable {code : Bytes}

/-! ## Runs of jump destinations -/

/-- The run of `JUMPDEST`s from `p` on ends at `c`. -/
structure EndsRun (code : Bytes) (p c : Nat) : Prop where
  le : p ≤ c
  run : ∀ q, p ≤ q → q ≤ c → q < code.length ∧ opAt code q = .jumpdest
  last : ¬ (c + 1 < code.length ∧ opAt code (c + 1) = .jumpdest)

namespace EndsRun

variable {p c : Nat}

variable (h : EndsRun code p c)

include h

theorem inner {q : Nat} (above : p ≤ q) (below : q ≤ c) : EndsRun code q c :=
  ⟨below, fun r low high => h.run r (Nat.le_trans above low) high, h.last⟩

theorem le_of_run {c' : Nat} (h' : EndsRun code p c') : c' ≤ c := by
  apply Nat.le_of_not_lt
  intro past
  exact h.last (h'.run (c + 1) (Nat.le_succ_of_le h.le) past)

theorem unique {c' : Nat} (h' : EndsRun code p c') : c = c' :=
  Nat.le_antisymm (h'.le_of_run h) (h.le_of_run h')

variable (dest : IsJumpDest code p)

include dest

theorem isJumpDest {q : Nat} (above : p ≤ q) (below : q ≤ c) : IsJumpDest code q := by
  obtain ⟨⟨n, rfl⟩, -, -⟩ := dest
  obtain ⟨inside, op⟩ := h.run q above below
  refine ⟨⟨n + (q - instrOffset code n), ?_⟩, inside, op⟩
  rw [instrOffset_run h.run _ (by omega)]
  omega

theorem isJumpDest_iff (q : Nat) : (IsJumpDest code q ∧ q < c + 1) ↔ (IsJumpDest code q ∧ q < p) ∨ (p ≤ q ∧ q ≤ c) := by
  have le := h.le
  constructor
  · rintro ⟨isDest, before⟩
    by_cases above : p ≤ q
    · exact .inr ⟨above, by omega⟩
    · exact .inl ⟨isDest, by omega⟩
  · rintro (⟨isDest, before⟩ | ⟨above, below⟩)
    · exact ⟨isDest, by omega⟩
    · exact ⟨h.isJumpDest dest above below, by omega⟩

theorem instrOffset_after : ∃ n, instrOffset code n = c + 1 := by
  have le := h.le
  obtain ⟨⟨n, rfl⟩, -, -⟩ := dest
  refine ⟨n + (c + 1 - instrOffset code n), ?_⟩
  rw [instrOffset_run h.run _ (by omega)]
  omega

end EndsRun

theorem rangeEnd_endsRun {pc : Nat} (inside : pc < code.length) (dest : opAt code pc = .jumpdest)
    {fuel : Nat} (enough : code.length ≤ pc + fuel) : EndsRun code pc (rangeEnd code fuel pc) := by
  have byte : ∀ q, byteAt code q = 0x5b ↔ opAt code q = .jumpdest := fun q =>
    (ofByte_scanned (byteAt code q)).1.symm
  obtain ⟨le, run⟩ := rangeEnd_spec code fuel pc
  refine ⟨le, fun q above below => ?_, ?_⟩
  · rcases Nat.eq_or_lt_of_le above with rfl | later
    · exact ⟨inside, dest⟩
    · obtain ⟨inside, jumpdest⟩ := run q later below
      exact ⟨inside, (byte q).mp jumpdest⟩
  · clear le run dest
    induction fuel generalizing pc with
    | zero => exact absurd enough (Nat.not_le.mpr inside)
    | succ fuel ih =>
      rw [rangeEnd]
      split
      · next more => exact ih more.1 (by omega)
      · next stop => exact fun more => stop ⟨more.1, (byte _).mpr more.2⟩

/-- The table has the destinations before a program counter, each with the end of its run. -/
structure RunsBefore (code : Bytes) (pcs : List (Nat × Nat)) (pc : Nat) : Prop where
  mem : ∀ p, p ∈ pcs.map Prod.fst ↔ IsJumpDest code p ∧ p < pc
  ends : ∀ e ∈ pcs, EndsRun code e.1 e.2

namespace RunsBefore

variable {pcs : List (Nat × Nat)} {n : Nat}

variable (h : RunsBefore code pcs (instrOffset code n))

include h

theorem skip (inside : instrOffset code n < code.length) (other : opAt code (instrOffset code n) ≠ .jumpdest) :
    RunsBefore code pcs (instrOffset code (n + 1)) := by
  refine ⟨fun p => ?_, h.ends⟩
  rw [h.mem, Cache.Decoded.jumpDest_succ inside]
  simp only [other, and_false, or_false]

theorem run {last : Nat} (ends : EndsRun code (instrOffset code n) last) :
    RunsBefore code (pcs ++ (List.range' (instrOffset code n) (last + 1 - instrOffset code n)).map
      fun p => (p, last)) (last + 1) := by
  have le := ends.le
  obtain ⟨inside, op⟩ := ends.run _ (Nat.le_refl _) le
  have dest : IsJumpDest code (instrOffset code n) := ⟨⟨n, rfl⟩, inside, op⟩
  refine ⟨fun p => ?_, fun e mem => ?_⟩
  · have keys : ((List.range' (instrOffset code n) (last + 1 - instrOffset code n)).map
        fun p => (p, last)).map Prod.fst =
        List.range' (instrOffset code n) (last + 1 - instrOffset code n) := by
      rw [List.map_map]
      exact List.map_id _
    rw [List.map_append, List.mem_append, h.mem, keys, List.mem_range'_1, ends.isJumpDest_iff dest]
    exact or_congr_right (and_congr_right fun _ => by omega)
  · rcases List.mem_append.mp mem with old | new
    · exact h.ends e old
    · obtain ⟨p, within, rfl⟩ := List.mem_map.mp new
      rw [List.mem_range'_1] at within
      exact ends.inner within.1 (by omega)

end RunsBefore

theorem jumpDestRunsLoop_spec (fuel n : Nat) (pcs : List (Nat × Nat))
    (h : RunsBefore code pcs (instrOffset code n)) (enough : code.length ≤ instrOffset code n + fuel) :
    ∃ k, code.length ≤ instrOffset code k ∧
      RunsBefore code (jumpDestRunsLoop code fuel (instrOffset code n) pcs) (instrOffset code k) := by
  induction fuel generalizing n pcs with
  | zero => exact ⟨n, enough, h⟩
  | succ fuel ih =>
    rw [jumpDestRunsLoop]
    by_cases inside : instrOffset code n < code.length
    · rw [if_pos inside]
      split
      · next op =>
        have ends := rangeEnd_endsRun inside op (Nat.le_add_left code.length (instrOffset code n))
        have le := ends.le
        obtain ⟨k, next⟩ := ends.instrOffset_after ⟨⟨n, rfl⟩, inside, op⟩
        have after := h.run ends
        dsimp only
        rw [← next] at after ⊢
        exact ih k _ after (by omega)
      · next other =>
        have pos := Opcode.len_pos (opAt code (instrOffset code n))
        have grows := instrOffset_succ inside
        rw [← grows]
        exact ih (n + 1) _ (h.skip inside other) (by omega)
    · rw [if_neg inside]
      exact ⟨n, Nat.not_lt.mp inside, h⟩

theorem buildJumpDestRuns_spec (code : Bytes) : (∀ p, p ∈ (buildJumpDestRuns code).map Prod.fst ↔ IsJumpDest code p) ∧
      ∀ e ∈ buildJumpDestRuns code, EndsRun code e.1 e.2 := by
  have start : RunsBefore code [] (instrOffset code 0) := by
    refine ⟨fun p => ?_, fun e mem => absurd mem List.not_mem_nil⟩
    constructor
    · exact fun mem => absurd mem List.not_mem_nil
    · exact fun h => absurd h.2 (Nat.not_lt_zero p)
  obtain ⟨k, past, h⟩ := jumpDestRunsLoop_spec code.length 0 [] start (Nat.le_add_left _ _)
  refine ⟨fun p => (h.mem p).trans ⟨And.left, fun dest => ⟨dest, ?_⟩⟩, h.ends⟩
  exact Nat.lt_of_lt_of_le dest.2.1 past

theorem hasCanonicalJumpDest_iff (code : Bytes) (pc : Nat) :
    hasCanonicalJumpDest code pc = true ↔ IsJumpDest code pc := by
  rw [hasCanonicalJumpDest, ← (buildJumpDestRuns_spec code).1, Option.isSome_iff_ne_none, Ne, List.lookup_eq_none_iff]
  simp

theorem canonical_endsRun {pc : Nat} (dest : IsJumpDest code pc) :
    EndsRun code pc (getCanonicalJumpDestPC code pc) := by
  have has := (hasCanonicalJumpDest_iff code pc).mpr dest
  rw [hasCanonicalJumpDest] at has
  obtain ⟨c, found⟩ := Option.isSome_iff_exists.mp has
  rw [getCanonicalJumpDestPC, found, Option.getD_some]
  have mem : (pc, c) ∈ buildJumpDestRuns code := by
    obtain ⟨l, r, eq, -⟩ := List.lookup_eq_some_iff.mp found
    rw [eq]
    exact List.mem_append_right _ List.mem_cons_self
  exact (buildJumpDestRuns_spec code).2 _ mem

theorem canonical_of_endsRun {p c : Nat} (h : EndsRun code p c) (dest : IsJumpDest code p) {q : Nat}
    (above : p ≤ q) (below : q ≤ c) : getCanonicalJumpDestPC code q = c :=
  (canonical_endsRun (h.isJumpDest dest above below)).unique (h.inner above below)

/-! ## Where blocks start -/

/-- An entry and the program counter after its `JUMPDEST`s, if it has any. -/
inductive Starts (code : Bytes) : Nat → Nat → Prop
  | run {c : Nat} (dest : IsJumpDest code c) (named : getCanonicalJumpDestPC code c = c) :
    Starts code c (c + 1)
  | plain {n : Nat} (within : instrOffset code n ≤ code.length)
    (other : ¬ (instrOffset code n < code.length ∧ opAt code (instrOffset code n) = .jumpdest)) :
    Starts code (instrOffset code n) (instrOffset code n)

namespace Starts

variable {entry start : Nat}

variable (h : Starts code entry start)

include h

theorem le : entry ≤ start := by
  cases h with
  | run => exact Nat.le_succ _
  | plain => exact Nat.le_refl _

theorem start_le : start ≤ code.length := by
  cases h with
  | run dest => exact dest.2.1
  | plain within => exact within

theorem aligned : ∃ n, instrOffset code n = start := by
  cases h with
  | run dest named =>
    have ends := canonical_endsRun dest
    rw [named] at ends
    exact ends.instrOffset_after dest
  | plain => exact ⟨_, rfl⟩

theorem not_jumpdest : ¬ (start < code.length ∧ opAt code start = .jumpdest) := by
  cases h with
  | run dest named =>
    have ends := canonical_endsRun dest
    rw [named] at ends
    exact ends.last
  | plain _ other => exact other

theorem isJumpDest_of_lt (lt : entry < start) : IsJumpDest code entry := by
  cases h with
  | run dest => exact dest
  | plain => exact absurd lt (Nat.lt_irrefl _)

omit h in
theorem canonical {p : Nat} (dest : IsJumpDest code p) :
    Starts code (getCanonicalJumpDestPC code p) (getCanonicalJumpDestPC code p + 1) := by
  have ends := canonical_endsRun dest
  exact .run (ends.isJumpDest dest ends.le (Nat.le_refl _))
    (canonical_of_endsRun ends dest ends.le (Nat.le_refl _))

theorem eq_of_isJumpDest (dest : IsJumpDest code entry) :
    start = entry + 1 ∧ getCanonicalJumpDestPC code entry = entry := by
  cases h with
  | run _ named => exact ⟨rfl, named⟩
  | plain _ other => exact absurd dest.2 other

end Starts

/-- What follows a scan from `pc` on: a block that starts after it, and no destination is left out. -/
structure NextFrom (code : Bytes) (pc : Nat) (next : Option Next) : Prop where
  starts : ∀ x, next = some x → Starts code x.entryPC x.bodyStartPC
  from_ : ∀ x, next = some x → pc ≤ x.entryPC ∧ pc < x.bodyStartPC
  covers : ∀ p, IsJumpDest code p → pc ≤ p →
    ∃ x, next = some x ∧ (x.entryPC = getCanonicalJumpDestPC code p ∨ x.bodyStartPC ≤ p)

namespace NextFrom

theorem none {pc : Nat} (past : code.length ≤ pc) : NextFrom code pc none := by
  refine ⟨fun x eq => (Option.some_ne_none x eq.symm).elim,
    fun x eq => (Option.some_ne_none x eq.symm).elim, fun p dest above => ?_⟩
  exact absurd dest.2.1 (Nat.not_lt.mpr (Nat.le_trans past above))

theorem jumpdest {q : Nat} (dest : IsJumpDest code q) :
    NextFrom code q (some ⟨getCanonicalJumpDestPC code q, getCanonicalJumpDestPC code q + 1⟩) := by
  have ends := canonical_endsRun dest
  refine ⟨?_, ?_, fun p other above => ⟨_, rfl, ?_⟩⟩
  · rintro x ⟨rfl⟩
    exact .canonical dest
  · rintro x ⟨rfl⟩
    exact ⟨ends.le, Nat.lt_succ_of_le ends.le⟩
  · by_cases below : p ≤ getCanonicalJumpDestPC code q
    · exact .inl (canonical_of_endsRun ends dest above below).symm
    · exact .inr (Nat.lt_of_not_le below)

variable {n : Nat} {next : Option Next}

theorem skip (h : NextFrom code (instrOffset code (n + 1)) next)
    (inside : instrOffset code n < code.length) (other : opAt code (instrOffset code n) ≠ .jumpdest) :
    NextFrom code (instrOffset code n) next := by
  have le := instrOffset_le_succ code n
  refine ⟨h.starts, fun x eq => ?_, fun p dest above => ?_⟩
  · obtain ⟨entry, start⟩ := h.from_ x eq
    exact ⟨Nat.le_trans le entry, Nat.lt_of_le_of_lt le start⟩
  · apply h.covers p dest
    apply Nat.le_of_not_lt
    intro before
    rcases (Cache.Decoded.jumpDest_succ inside p).mp ⟨dest, before⟩ with ⟨-, earlier⟩ | ⟨-, here⟩
    · exact absurd above (Nat.not_le.mpr earlier)
    · exact other here

theorem fallthrough (inside : instrOffset code n < code.length) (jumpi : opAt code (instrOffset code n) = .jumpi) :
    NextFrom code (instrOffset code n) (some (fallthroughNext code (instrOffset code n))) := by
  have after : instrOffset code (n + 1) = instrOffset code n + 1 := by
    rw [instrOffset_succ inside, jumpi]
    rfl
  have other : opAt code (instrOffset code n) ≠ .jumpdest := by
    rw [jumpi]
    exact Opcode.noConfusion
  by_cases dest : instrOffset code n + 1 < code.length ∧ opAt code (instrOffset code n + 1) = .jumpdest
  · rw [fallthroughNext, if_pos dest, ← after]
    exact (NextFrom.jumpdest ⟨⟨n + 1, rfl⟩, after ▸ dest.1, after ▸ dest.2⟩).skip inside other
  · rw [fallthroughNext, if_neg dest]
    refine ⟨?_, ?_, fun p isDest above => ⟨_, rfl, .inr ?_⟩⟩
    · rintro x ⟨rfl⟩
      rw [← after] at dest ⊢
      exact .plain (after ▸ inside) dest
    · rintro x ⟨rfl⟩
      exact ⟨Nat.le_succ _, Nat.lt_succ_self _⟩
    · rcases Nat.eq_or_lt_of_le above with rfl | later
      · exact absurd isDest.2.2 other
      · exact later

theorem lt_entry {pc : Nat} (h : NextFrom code pc next) (other : opAt code pc ≠ .jumpdest) {x : Next}
    (eq : next = some x) : pc < x.entryPC := by
  obtain ⟨entry, start⟩ := h.from_ x eq
  apply Nat.lt_of_le_of_ne entry
  intro here
  rw [here] at start other
  exact other ((h.starts x eq).isJumpDest_of_lt start).2.2

end NextFrom

theorem skipDeadCode_next (fuel n : Nat) (enough : code.length ≤ instrOffset code n + fuel) :
    NextFrom code (instrOffset code n) (skipDeadCode code fuel (instrOffset code n)).2 := by
  induction fuel generalizing n with
  | zero => exact .none enough
  | succ fuel ih =>
    rw [skipDeadCode]
    by_cases inside : instrOffset code n < code.length
    · rw [if_pos inside]
      split
      · next dest => exact .jumpdest ⟨⟨n, rfl⟩, inside, dest⟩
      · next other =>
        have grows := instrOffset_succ inside
        have pos := Opcode.len_pos (opAt code (instrOffset code n))
        rw [← grows]
        exact (ih (n + 1) (by omega)).skip inside other
    · rw [if_neg inside]
      exact .none (Nat.not_lt.mp inside)

/-! ## Scans -/

section Scans

variable {tables : StackTables} {rev : Revision}

theorem len_of_undefined {pc : Nat} (undefined : tables.defined rev (byteAt code pc) = false) :
    (opAt code pc).len = 1 := by
  cases op : opAt code pc with
  | push n =>
    rw [tables.push_defined rev _ n op] at undefined
    cases undefined
  | _ => rfl

theorem len_of_straightOp {pc : Nat} (ends : straightOp tables rev code pc = none) : (opAt code pc).len = 1 := by
  cases op : opAt code pc with
  | push n =>
    rw [straightOp, op] at ends
    cases ends
  | _ => rfl

theorem scanBody_next (tables : StackTables) (rev : Revision) (body : BlockBody) (fuel : Nat) {n : Nat} (s : Scan)
    (aligned : instrOffset code n = s.scanPC) (enough : code.length ≤ s.scanPC + fuel) :
    NextFrom code s.scanPC (scanBody tables rev code body fuel s).next := by
  induction fuel generalizing n s with
  | zero => exact .none enough
  | succ fuel ih =>
    rw [scanBody]
    by_cases inside : s.scanPC < code.length
    · rw [if_pos inside]
      by_cases dest : opAt code s.scanPC = .jumpdest
      · rw [if_pos dest]
        exact .jumpdest ⟨⟨n, aligned⟩, inside, dest⟩
      · rw [if_neg dest]
        have grows := instrOffset_succ (aligned ▸ inside)
        rw [aligned] at grows
        have pos := Opcode.len_pos (opAt code s.scanPC)
        -- What a scan finds after an instruction, and what it finds if the block ends with it.
        have later {next : Option Next} (h : NextFrom code (instrOffset code (n + 1)) next) :
            NextFrom code s.scanPC next := by
          rw [← aligned]
          exact h.skip (aligned ▸ inside) (aligned ▸ dest)
        have skipped (one : (opAt code s.scanPC).len = 1) :
            NextFrom code s.scanPC (skipDeadCode code code.length (s.scanPC + 1)).2 := by
          apply later
          have next := skipDeadCode_next code.length (n + 1) (Nat.le_add_left _ _)
          rwa [grows, one] at next ⊢
        split
        · next undefined => exact skipped (len_of_undefined undefined)
        · split
          · next op out straight =>
            apply later
            have next := ih (s.apply op out (s.scanPC + (opAt code s.scanPC).len)) grows (by
              show code.length ≤ s.scanPC + (opAt code s.scanPC).len + fuel
              omega)
            rw [grows]
            exact next
          · next ends =>
            split
            · exact skipped (len_of_straightOp ends)
            · next op =>
              show NextFrom code s.scanPC (some (fallthroughNext code s.scanPC))
              rw [← aligned] at inside op ⊢
              exact .fallthrough inside op
            · exact skipped (len_of_straightOp ends)
    · rw [if_neg inside]
      exact .none (Nat.not_lt.mp inside)

theorem scanBody_body (tables : StackTables) (rev : Revision) (code : Bytes) (body : BlockBody) (fuel : Nat) (s : Scan) :
    (scanBody tables rev code body fuel s).body.entryPC = body.entryPC ∧
      (scanBody tables rev code body fuel s).body.bodyStartPC = body.bodyStartPC ∧
      (scanBody tables rev code body fuel s).body.isJumpDest = body.isJumpDest := by
  induction fuel generalizing s with
  | zero => exact ⟨rfl, rfl, rfl⟩
  | succ fuel ih =>
    rw [scanBody]
    split
    · split
      · exact ⟨rfl, rfl, rfl⟩
      · split
        · exact ⟨rfl, rfl, rfl⟩
        · split
          · exact ih _
          · split
            · unfold endJump
              dsimp only
              split <;> exact ⟨rfl, rfl, rfl⟩
            · unfold endJumpI
              dsimp only
              split
              · exact ⟨rfl, rfl, rfl⟩
              · split <;> exact ⟨rfl, rfl, rfl⟩
            · exact ⟨rfl, rfl, rfl⟩
    · exact ⟨rfl, rfl, rfl⟩

end Scans

/-! ## The list of blocks -/

section Layout

variable (tables : StackTables) (rev : Revision) (code : Bytes)

def BlockBody.scanned (b : BlockBody) : Scanned :=
  scanBlock tables rev code b.entryPC b.bodyStartPC b.isJumpDest

structure Before (a b : BlockBody) : Prop where
  lt : a.entryPC < b.entryPC
  next : ∃ x, (a.scanned tables rev code).next = some x ∧ x.entryPC ≤ b.entryPC

/-- Blocks that lie one after the other, and what follows each of them is one. -/
structure Layout (blocks : List BlockBody) : Prop where
  starts : ∀ b ∈ blocks, Starts code b.entryPC b.bodyStartPC
  scanned : ∀ b ∈ blocks, b = (b.scanned tables rev code).finish code
  next : ∀ b ∈ blocks, ∀ x, (b.scanned tables rev code).next = some x →
    ∃ b' ∈ blocks, b'.entryPC = x.entryPC ∧ b'.bodyStartPC = x.bodyStartPC
  before : blocks.Pairwise (Before tables rev code)

structure LaidFrom (entry start : Nat) (blocks : List BlockBody) : Prop extends
    Layout tables rev code blocks where
  head : ∃ b ∈ blocks, b.entryPC = entry ∧ b.bodyStartPC = start
  from_ : ∀ b ∈ blocks, entry ≤ b.entryPC
  dests : ∀ p, IsJumpDest code p → start ≤ p → ∃ b ∈ blocks, b.entryPC = getCanonicalJumpDestPC code p

variable {tables rev code}

theorem scanBlock_finish (tables : StackTables) (rev : Revision) (code : Bytes) (entry start : Nat) (isDest : Bool)
    {r : Scanned} (ran : scanBlock tables rev code entry start isDest = r) :
    r.body.entryPC = entry ∧ r.body.bodyStartPC = start ∧ (r.finish code).scanned tables rev code = r := by
  obtain ⟨entryPC, bodyStartPC, isJumpDest⟩ : r.body.entryPC = entry ∧ r.body.bodyStartPC = start ∧
      r.body.isJumpDest = isDest := ran ▸ scanBody_body ..
  refine ⟨entryPC, bodyStartPC, ?_⟩
  show scanBlock tables rev code r.body.entryPC r.body.bodyStartPC r.body.isJumpDest = r
  rw [entryPC, bodyStartPC, isJumpDest, ran]

variable {entry start : Nat}

theorem scanBlock_next (tables : StackTables) (rev : Revision) (starts : Starts code entry start) (isDest : Bool) :
    NextFrom code start (scanBlock tables rev code entry start isDest).next := by
  obtain ⟨n, aligned⟩ := starts.aligned
  exact scanBody_next _ _ _ _ ⟨start, [], 0, 0, 0, 0, 0⟩ aligned (Nat.le_add_left _ _)

theorem Starts.lt_next (starts : Starts code entry start) {isDest : Bool} {x : Next}
    (eq : (scanBlock tables rev code entry start isDest).next = some x) : entry < x.entryPC := by
  have next := scanBlock_next tables rev starts isDest
  have inside : start < code.length :=
    Nat.lt_of_lt_of_le (next.from_ x eq).2 (next.starts x eq).start_le
  have lt := next.lt_entry (fun op => starts.not_jumpdest ⟨inside, op⟩) eq
  exact Nat.lt_of_le_of_lt starts.le lt

namespace LaidFrom

theorem last (starts : Starts code entry start) (isDest : Bool)
    (ends : (scanBlock tables rev code entry start isDest).next = none) :
    LaidFrom tables rev code entry start [(scanBlock tables rev code entry start isDest).finish code] := by
  obtain ⟨entryPC, bodyStartPC, scanned⟩ := scanBlock_finish tables rev code entry start isDest rfl
  refine ⟨⟨?_, ?_, ?_, List.pairwise_singleton _ _⟩, ⟨_, List.mem_singleton_self _, entryPC, bodyStartPC⟩,
    ?_, fun p dest above => ?_⟩
  · intro b mem
    obtain rfl := List.mem_singleton.mp mem
    exact (congrArg₂ (Starts code) entryPC bodyStartPC).mpr starts
  · intro b mem
    obtain rfl := List.mem_singleton.mp mem
    rw [scanned]
  · intro b mem x eq
    obtain rfl := List.mem_singleton.mp mem
    rw [scanned, ends] at eq
    cases eq
  · intro b mem
    obtain rfl := List.mem_singleton.mp mem
    exact Nat.le_of_eq entryPC.symm
  · obtain ⟨x, eq, -⟩ := (scanBlock_next tables rev starts isDest).covers p dest above
    rw [ends] at eq
    cases eq

theorem cons (starts : Starts code entry start) {isDest : Bool} {x : Next}
    (eq : (scanBlock tables rev code entry start isDest).next = some x) {rest : List BlockBody}
    (h : LaidFrom tables rev code x.entryPC x.bodyStartPC rest) : LaidFrom tables rev code entry start
      ((scanBlock tables rev code entry start isDest).finish code :: rest) := by
  obtain ⟨entryPC, bodyStartPC, scanned⟩ := scanBlock_finish tables rev code entry start isDest rfl
  have lt := starts.lt_next eq
  refine ⟨⟨?_, ?_, ?_, List.pairwise_cons.mpr ⟨?_, h.before⟩⟩,
    ⟨_, List.mem_cons_self, entryPC, bodyStartPC⟩, ?_, fun p dest above => ?_⟩
  · rw [List.forall_mem_cons]
    exact ⟨(congrArg₂ (Starts code) entryPC bodyStartPC).mpr starts, h.starts⟩
  · rw [List.forall_mem_cons]
    exact ⟨by rw [scanned], h.scanned⟩
  · rw [List.forall_mem_cons]
    refine ⟨fun y next => ?_, fun b mem y next => ?_⟩
    · rw [scanned, eq] at next
      cases next
      obtain ⟨b, mem, same⟩ := h.head
      exact ⟨b, List.mem_cons_of_mem _ mem, same⟩
    · obtain ⟨b', mem', same⟩ := h.next b mem y next
      exact ⟨b', List.mem_cons_of_mem _ mem', same⟩
  · intro b mem
    have le := h.from_ b mem
    refine ⟨?_, x, by rw [scanned, eq], le⟩
    exact Nat.lt_of_le_of_lt (Nat.le_of_eq entryPC) (Nat.lt_of_lt_of_le lt le)
  · rw [List.forall_mem_cons]
    exact ⟨Nat.le_of_eq entryPC.symm, fun b mem => Nat.le_trans (Nat.le_of_lt lt) (h.from_ b mem)⟩
  · obtain ⟨y, next, named | later⟩ := (scanBlock_next tables rev starts isDest).covers p dest above
    · rw [eq] at next
      cases next
      obtain ⟨b, mem, same, -⟩ := h.head
      exact ⟨b, List.mem_cons_of_mem _ mem, same.trans named⟩
    · rw [eq] at next
      cases next
      obtain ⟨b, mem, same⟩ := h.dests p dest later
      exact ⟨b, List.mem_cons_of_mem _ mem, same⟩

end LaidFrom

theorem buildBlocksLoop_laid (tables : StackTables) (rev : Revision) (fuel : Nat) (starts : Starts code entry start)
    (isDest : Bool) (enough : code.length < start + fuel) :
    LaidFrom tables rev code entry start (buildBlocksLoop tables rev code fuel entry start isDest) := by
  induction fuel generalizing entry start isDest with
  | zero => exact absurd enough (Nat.not_lt.mpr starts.start_le)
  | succ fuel ih =>
    rw [buildBlocksLoop]
    split
    · next ends => exact .last starts isDest ends
    · next x eq =>
      have next := scanBlock_next tables rev starts isDest
      have later := (next.from_ x eq).2
      rw [if_neg (Nat.not_lt.mpr (next.starts x eq).start_le)]
      exact .cons starts eq (ih (next.starts x eq) _ (by omega))

end Layout

/-- `buildBlocks` covers the code: it starts at the entry, and every destination has its block. -/
theorem buildBlocks_laid (tables : StackTables) (rev : Revision) (code : Bytes) :
    Layout tables rev code (buildBlocks tables rev code) ∧
      (∃ b ∈ buildBlocks tables rev code, b.entryPC = entryBlockPC code) ∧ ∀ p, IsJumpDest code p →
        ∃ b ∈ buildBlocks tables rev code, b.entryPC = getCanonicalJumpDestPC code p := by
  unfold buildBlocks entryBlockPC
  by_cases empty : code.length = 0
  · obtain rfl := List.length_eq_zero_iff.mp empty
    rw [if_pos empty, if_neg fun h => Nat.lt_irrefl 0 h.1]
    have starts : Starts [] 0 0 := .plain (n := 0) (Nat.le_refl 0) fun h => Nat.lt_irrefl 0 h.1
    have h : LaidFrom tables rev [] 0 0 [.start 0 0 false] := .last starts false rfl
    obtain ⟨b, mem, entry, -⟩ := h.head
    exact ⟨h.toLayout, ⟨b, mem, entry⟩, fun p dest => absurd dest.2.1 (Nat.not_lt_zero p)⟩
  · have inside : 0 < code.length := Nat.pos_of_ne_zero empty
    rw [if_neg empty]
    by_cases op : opAt code 0 = .jumpdest
    · have dest : IsJumpDest code 0 := ⟨⟨0, rfl⟩, inside, op⟩
      rw [if_pos op, if_pos ⟨inside, op⟩]
      have h := buildBlocksLoop_laid tables rev (code.length + 1)
        (.canonical dest) true (by omega)
      obtain ⟨b, mem, entry, -⟩ := h.head
      refine ⟨h.toLayout, ⟨b, mem, entry⟩, fun p isDest => ?_⟩
      by_cases later : getCanonicalJumpDestPC code 0 + 1 ≤ p
      · exact h.dests p isDest later
      · have same := canonical_of_endsRun (canonical_endsRun dest) dest (Nat.zero_le p) (by omega)
        exact ⟨b, mem, entry.trans same.symm⟩
    · rw [if_neg op, if_neg fun h => op h.2]
      have starts : Starts code 0 0 := .plain (n := 0) (Nat.zero_le _) fun h => op h.2
      have h := buildBlocksLoop_laid tables rev (code.length + 1) starts false
        (by omega)
      obtain ⟨b, mem, entry, -⟩ := h.head
      exact ⟨h.toLayout, ⟨b, mem, entry⟩, fun p dest => h.dests p dest (Nat.zero_le p)⟩

end Dtvm.Jit.Analyzer
