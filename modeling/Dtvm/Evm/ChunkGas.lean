import Dtvm.Evm.Metering

/-!
# Charging by chunks and charging by opcodes agree

The interpreter collects a chunk's cost once and runs its opcodes free of charge; a loop that only ever charges
opcode by opcode is the reference (`Setup.withoutChunks`). Both come to the same end: the same status, output,
gas, refund and host calls, or a failure on both sides (`interpret_chunks_agree`). Which failure it is may differ.
The chunks are charged by the revision of the module and the opcodes by that of the instance, so these have to have
the same base costs. The first call at depth 0 of a VM is given an instance that does not heed its revision.

Inside a chunk every opcode but the last only spends, so collecting the base costs along the way adds exactly
their sum to the bill (`Effect.exists_bill_paid`). Across chunks, each round of the interpreter is matched by some
rounds of the reference (`Tracks`, `round_tracks`). Of runs that do not end, only that neither side ends is said.
-/

namespace Dtvm

open Effect Program

namespace Setup

/-! ## The opcodes of a chunk before its last -/

variable {s : Setup} {host : Host} {α : Type} {body : List Nat} {pc mid stop : Nat}
  {m m' : Machine}

theorem run_pc (f : Nat → Code α) (m : Machine) :
    (Code.pc >>= f).run (Machine.handle host) m = (f m.pc).run (Machine.handle host) m :=
  run_bind_ok (a := m.pc) rfl f

theorem slowStep_of_plain (runs : s.Runs pc) (plain : (opAt s.env.code pc).isGasChunkTerminator = false) :
    s.slowStep pc = (do Code.charge (s.costAt pc); s.onward pc) := by
  unfold slowStep
  rw [slowOp_of_runs runs (by rintro h; simp [h, Opcode.isGasChunkTerminator] at plain)
    (by rintro h; simp [h, Opcode.isGasChunkTerminator] at plain), bind_assoc,
    Opcode.exec_next plain runs.2, bind_assoc]
  rfl

theorem onward_pc (h : (s.onward pc).run (Machine.handle host) m = (.ok (), m')) :
    m'.pc = pc + (opAt s.env.code pc).len := by
  unfold onward at h
  rw [run_bind] at h
  split at h
  · cases h
    rfl
  · cases h

theorem interpret_inside (rounds : Nat) (inside : m.pc < s.env.code.length) :
    (s.interpret (rounds + 1)).run (Machine.handle host) m =
      (do s.round m.pc; s.interpret rounds).run (Machine.handle host) m := by
  rw [interpret, turn, bind_assoc, run_pc, if_pos inside]

theorem interpret_outside (rounds : Nat) (outside : ¬ m.pc < s.env.code.length) :
    (s.interpret (rounds + 1)).run (Machine.handle host) m = Handler.stop.run (Machine.handle host) m := by
  rw [interpret, turn, bind_assoc, run_pc, if_neg outside]
  rfl

theorem interpret_withoutChunks_succ (n : Nat) (inside : m.pc < s.env.code.length) :
    (s.withoutChunks.interpret (n + 1)).run (Machine.handle host) m =
      (do s.slowStep m.pc; s.withoutChunks.interpret n).run (Machine.handle host) m := by
  have slow : s.withoutChunks.round m.pc = s.slowStep m.pc := if_neg (Nat.not_lt_zero _)
  rw [interpret_inside (s := s.withoutChunks) n inside, slow]

theorem chunkLoop_succ (fuel : Nat) (inside : m.pc < stop) : (s.chunkLoop stop (fuel + 1)).run (Machine.handle host) m =
      (do
        let flow ← s.fastOp (byteAt s.env.code m.pc)
        s.advance m.pc flow
        match flow with
        | .next => s.chunkLoop stop fuel
        | .jump => pure ()).run (Machine.handle host) m := by
  rw [chunkLoop, run_pc]
  exact congrArg (fun p : Code Unit => p.run (Machine.handle host) m) (if_neg (by omega))

theorem chunkLoop_past (fuel : Nat) (past : stop ≤ m.pc) :
    (s.chunkLoop stop fuel).run (Machine.handle host) m = (.ok (), m) := by
  cases fuel with
  | zero => rfl
  | succ fuel =>
    rw [chunkLoop, run_pc, if_pos past]
    rfl

theorem chunkLoop_of_plain (fuel : Nat) (inside : m.pc < stop) (runs : s.Runs m.pc)
    (plain : (opAt s.env.code m.pc).isGasChunkTerminator = false) :
    (s.chunkLoop stop (fuel + 1)).run (Machine.handle host) m =
      (do s.onward m.pc; s.chunkLoop stop fuel).run (Machine.handle host) m := by
  rw [chunkLoop_succ fuel inside, fastOp_of_runs runs, Opcode.exec_next plain runs.2]
  simp only [onward, bind_assoc, pure_bind, advance]

variable (s) in
/-- The opcodes at `pcs`, each with its base cost. -/
def parts (pcs : List Nat) : List (Nat × Code Unit) := pcs.map fun pc => (s.costAt pc, s.onward pc)

theorem amounts_parts (pcs : List Nat) :
    amounts (s.parts pcs) = baseCosts s.env.code (s.tables.cost64 s.env.rev) pcs := by
  simp [amounts, parts, baseCosts, Function.comp_def, costAt, baseCost]

theorem parts_within (plain : ∀ p ∈ body, (opAt s.env.code p).isGasChunkTerminator = false) :
    ∀ part ∈ s.parts body, Within (May s.env false) part.2 := by
  intro part mem
  obtain ⟨p, hp, rfl⟩ := List.mem_map.mp mem
  have exec := (opAt s.env.code p).exec_within s.env s.cache.maps
  rw [plain p hp] at exec
  exact .bind exec fun _ => inferInstance

/-- A run through a straight stretch, opcode by opcode, ends where the stretch does. -/
theorem inOrder_pc {step : Nat → Nat × Code Unit}
    (moves : ∀ pc m m', (step pc).2.run (Machine.handle host) m = (.ok (), m') → m'.pc = pc + (opAt s.env.code pc).len)
    (straight : Straight s.env.code pc body mid) (start : m.pc = pc)
    (h : (inOrder (body.map step)).run (Machine.handle host) m = (.ok (), m')) : m'.pc = mid := by
  induction straight generalizing m with
  | nil pc =>
    cases h
    exact start
  | @cons pc mid pcs inside rest ih =>
    simp only [List.map_cons, inOrder] at h
    rw [run_bind] at h
    split at h
    · exact ih (moves _ _ _ ‹_›) h
    · cases h

section

variable (straight : Straight s.env.code pc body mid)

include straight

theorem paidInOrder_pc (start : m.pc = pc)
    (h : (paidInOrder Code.charge (s.parts body)).run (Machine.handle host) m = (.ok (), m')) : m'.pc = mid := by
  rw [paidInOrder_eq, parts, List.map_map] at h
  refine inOrder_pc (fun pc m m' step => ?_) straight start h
  rw [Function.comp_apply, run_bind] at step
  split at step
  · exact onward_pc step
  · cases step

variable (plain : ∀ p ∈ body, (opAt s.env.code p).isGasChunkTerminator = false) (runs : ∀ p ∈ body, s.Runs p)
include plain runs

theorem interpret_body (n : Nat) (start : m.pc = pc) :
    (s.withoutChunks.interpret (body.length + n)).run (Machine.handle host) m =
      (do paidInOrder Code.charge (s.parts body); s.withoutChunks.interpret n).run
        (Machine.handle host) m := by
  induction straight generalizing m with
  | nil pc => simp [parts, paidInOrder]
  | @cons pc mid pcs inside rest ih =>
    subst start
    rw [List.length_cons, Nat.add_right_comm, interpret_withoutChunks_succ _ inside,
      slowStep_of_plain (runs _ List.mem_cons_self) (plain _ List.mem_cons_self)]
    simp only [parts, List.map_cons, paidInOrder, bind_assoc]
    refine run_bind_congr fun _ _ _ => run_bind_congr fun _ _ step => ?_
    exact ih (fun p hp => plain p (List.mem_cons_of_mem _ hp))
      (fun p hp => runs p (List.mem_cons_of_mem _ hp)) (onward_pc step)

theorem chunkLoop_body (before : mid ≤ stop) (fuel : Nat) (start : m.pc = pc) :
    (s.chunkLoop stop (body.length + fuel)).run (Machine.handle host) m =
      (do inOrder (s.parts body); s.chunkLoop stop fuel).run (Machine.handle host) m := by
  induction straight generalizing m with
  | nil pc => simp [parts, inOrder]
  | @cons pc mid pcs inside rest ih =>
    subst start
    have := (rest.cons inside).mem_inside _ List.mem_cons_self
    rw [List.length_cons, Nat.add_right_comm, chunkLoop_of_plain _ (by omega)
      (runs _ List.mem_cons_self) (plain _ List.mem_cons_self)]
    simp only [parts, List.map_cons, inOrder, bind_assoc]
    refine run_bind_congr fun _ _ step => ?_
    exact ih (fun p hp => plain p (List.mem_cons_of_mem _ hp))
      (fun p hp => runs p (List.mem_cons_of_mem _ hp)) before (onward_pc step)

end

/-! ## The reference follows a round of the interpreter -/

variable (host s) in
/-- The reference, started on `m`, comes to what a round of the interpreter came to: it reaches the
same machine after at least `least` rounds, or ends the frame alike, or fails too. -/
def Tracks (least : Nat) (m : Machine) : Except Halt Unit × Machine → Prop
  | (.ok _, m') => ∃ k, least ≤ k ∧ ∀ n,
      (s.withoutChunks.interpret (k + n)).run (Machine.handle host) m =
        (s.withoutChunks.interpret n).run (Machine.handle host) m'
  | (.error (.finish st), m') => ∃ k,
      (s.withoutChunks.interpret k).run (Machine.handle host) m = (.error (.finish st), m')
  | (.error (.fail _), _) => ∃ k,
      Fails ((s.withoutChunks.interpret k).run (Machine.handle host) m)

variable {r : Except Halt Unit × Machine}

theorem tracks_of_fails {least : Nat} (fast : Fails r) {k : Nat}
    (slow : Fails ((s.withoutChunks.interpret k).run (Machine.handle host) m)) : s.Tracks host least m r := by
  obtain ⟨st, m', rfl⟩ := fast
  exact ⟨k, slow⟩

/-- What the reference follows from a later machine it follows from an earlier one. -/
theorem Tracks.before {least j : Nat} (h : s.Tracks host least m' r)
    (reach : ∀ n, (s.withoutChunks.interpret (j + n)).run (Machine.handle host) m =
      (s.withoutChunks.interpret n).run (Machine.handle host) m') : s.Tracks host (j + least) m r := by
  match r, h with
  | (.ok _, _), ⟨k, le, eq⟩ =>
    exact ⟨j + k, by omega, fun n => by rw [Nat.add_assoc, reach, eq]⟩
  | (.error (.finish _), _), ⟨k, eq⟩ => exact ⟨j + k, by rw [reach, eq]⟩
  | (.error (.fail _), _), ⟨k, fails⟩ => exact ⟨j + k, by rw [reach]; exact fails⟩

theorem Tracks.mono {least less : Nat} (h : s.Tracks host least m r) (le : less ≤ least) : s.Tracks host less m r := by
  match r, h with
  | (.ok _, _), ⟨k, le', eq⟩ => exact ⟨k, le.trans le', eq⟩
  | (.error (.finish _), _), h => exact h
  | (.error (.fail _), _), h => exact h

theorem tracks_slowStep (host : Host) (inside : m.pc < s.env.code.length) :
    s.Tracks host 1 m ((s.slowStep m.pc).run (Machine.handle host) m) := by
  have one : ∀ n, (s.withoutChunks.interpret (1 + n)).run (Machine.handle host) m =
      (do s.slowStep m.pc; s.withoutChunks.interpret n).run (Machine.handle host) m :=
    fun n => by rw [Nat.add_comm, interpret_withoutChunks_succ n inside]
  match h : (s.slowStep m.pc).run (Machine.handle host) m with
  | (.ok _, m') => exact ⟨1, le_rfl, fun n => by rw [one, run_bind_ok h]⟩
  | (.error (.finish st), m') => exact ⟨1 + 0, by rw [one, run_bind_error h]⟩
  | (.error (.fail st), m') => exact ⟨1 + 0, st, m', by rw [one, run_bind_error h]⟩

/-- **A stretch of a chunk**, its cost `total` collected at its start. What follows it on the fast
path is `rest`; the part of `total` that belongs to `rest` is `last`. If the reference follows
`rest` with `last` more gas, and fails with less than `last`, it follows the whole. -/
theorem tracks_body (least last : Nat) {total : Nat} {rest : Code Unit} (straight : Straight s.env.code pc body mid)
    (plain : ∀ p ∈ body, (opAt s.env.code p).isGasChunkTerminator = false)
    (runs : ∀ p ∈ body, s.Runs p) (start : m.pc = pc)
    (cost : total = amounts (s.parts body) + last) (enough : total ≤ m.gas)
    (follows : ∀ (w : Machine) (g : Nat), w.pc = mid →
      s.Tracks host least (w.withGas (g + last)) (rest.run (Machine.handle host) (w.withGas g)))
    (short : ∀ (w : Machine) (g : Nat), w.pc = mid → g < last →
      ∃ k, Fails ((s.withoutChunks.interpret k).run (Machine.handle host) (w.withGas g))) :
    s.Tracks host (body.length + least) m
      ((do inOrder (s.parts body); rest).run (Machine.handle host)
        (m.withGas (m.gas - total))) := by
  have within := parts_within plain
  have paidWithin : Within (May s.env false) (paidInOrder Code.charge (s.parts body)) :=
    paidInOrder_within (fun _ => inferInstance) within
  have slow : ∀ n, (s.withoutChunks.interpret (body.length + n)).run (Machine.handle host) m =
      (do paidInOrder Code.charge (s.parts body); s.withoutChunks.interpret n).run
        (Machine.handle host) m := fun n => interpret_body straight plain runs n start
  obtain ⟨bill, free, paid⟩ := exists_bill_paid (Machine.handle_metered s.env host)
    (Machine.charge_meters host) (s.parts body) within m
  cases bill with
  | stops =>
    refine tracks_of_fails ((fails_of_stops (inOrder_within within) (free _)).bind _)
      (k := body.length + 0) ?_
    rw [slow]
    exact (fails_of_stops paidWithin (paid m.gas)).bind _
  | spends c a w =>
    have at_mid : (w.withGas (c - c)).pc = mid :=
      inOrder_pc (m := m.withGas c) (fun _ _ _ => onward_pc) straight start ((free c).1 le_rfl)
    have reach : amounts (s.parts body) + c ≤ m.gas → ∀ n,
        (s.withoutChunks.interpret (body.length + n)).run (Machine.handle host) m =
          (s.withoutChunks.interpret n).run (Machine.handle host)
            (w.withGas (m.gas - (amounts (s.parts body) + c))) :=
      fun rich n => (slow n).trans (run_bind_ok ((paid m.gas).1 rich) _)
    rcases Nat.lt_or_ge (m.gas - total) c with less | more
    · -- the fast path runs out inside the stretch; the reference does there or at the last opcode
      have fast := (fails_of_stops (inOrder_within within) ((free _).2 less)).bind fun _ => rest
      rcases Nat.lt_or_ge m.gas (amounts (s.parts body) + c) with poor | rich
      · refine tracks_of_fails fast (k := body.length + 0) ?_
        rw [slow]
        exact (fails_of_stops paidWithin ((paid m.gas).2 poor)).bind _
      · obtain ⟨k, fails⟩ := short w (m.gas - (amounts (s.parts body) + c)) at_mid (by omega)
        refine tracks_of_fails fast (k := body.length + k) ?_
        rw [reach rich]
        exact fails
    · rw [run_bind_ok ((free (m.gas - total)).1 more)]
      refine (follows w (m.gas - total - c) at_mid).before fun n => ?_
      rw [reach (by omega)]
      congr 2
      omega

/-! ## The last opcode of a chunk -/

theorem costAt_stop (stop : opAt s.env.code pc = .stop) : s.costAt pc = 0 := by
  have zero : byteAt s.env.code pc = 0 := Opcode.eq_zero_of_ofByte_stop stop
  simp [costAt, baseCost, InstructionTables.cost64, zero, s.tables.stop_free]

theorem chunkLoop_last (fuel : Nat) (runs : s.Runs m.pc) (ends : stop = m.pc + (opAt s.env.code m.pc).len) :
    (s.chunkLoop stop (fuel + 1)).run (Machine.handle host) m =
      ((opAt s.env.code m.pc).exec s.env s.cache.maps >>= s.advance m.pc).run (Machine.handle host) m := by
  have := (opAt s.env.code m.pc).len_pos
  rw [chunkLoop_succ fuel (by omega), fastOp_of_runs runs]
  refine run_bind_congr fun flow m₁ _ => ?_
  cases flow with
  | jump => rfl
  | next =>
    have moved : (s.advance m.pc .next).run (Machine.handle host) m₁ =
        (.ok (), { m₁ with pc := stop }) := by rw [ends]; rfl
    rw [run_bind_ok moved, moved]
    exact chunkLoop_past fuel le_rfl

theorem slowStep_last {w : Machine} (runs : s.Runs w.pc) (valid : opAt s.env.code w.pc ≠ .invalid) (g : Nat) :
    (s.slowStep w.pc).run (Machine.handle host) (w.withGas (g + s.costAt w.pc)) =
      ((opAt s.env.code w.pc).exec s.env s.cache.maps >>= s.advance w.pc).run (Machine.handle host) (w.withGas g) := by
  unfold slowStep
  by_cases stops : opAt s.env.code w.pc = .stop
  · have free : s.slowOp (byteAt s.env.code w.pc) = Opcode.exec s.env s.cache.maps .stop := by
      unfold slowOp
      rw [if_neg (by simp [runs.1]), show Opcode.ofByte (byteAt s.env.code w.pc) = .stop from stops]
    rw [free, costAt_stop stops, stops, Nat.add_zero]
  · rw [slowOp_of_runs runs stops valid, bind_assoc]
    have charged := (Machine.charge_meters host (s.costAt w.pc) w (g + s.costAt w.pc)).1 (by omega)
    rw [Nat.add_sub_cancel] at charged
    exact run_bind_ok charged _

theorem fails_invalid (host : Host) (m : Machine) (runs : s.Runs pc) (invalid : opAt s.env.code pc = .invalid) :
    Fails ((s.slowStep pc).run (Machine.handle host) m) ∧
      Fails (((opAt s.env.code pc).exec s.env s.cache.maps >>= s.advance pc).run (Machine.handle host) m) := by
  have free : s.slowOp (byteAt s.env.code pc) = Opcode.exec s.env s.cache.maps .invalid := by
    unfold slowOp
    rw [if_neg (by simp [runs.1]), show Opcode.ofByte (byteAt s.env.code pc) = .invalid from invalid]
  constructor
  · unfold slowStep
    rw [free]
    exact ⟨_, m, rfl⟩
  · rw [invalid]
    exact ⟨_, m, rfl⟩

theorem fails_short {w : Machine} (runs : s.Runs w.pc) {g : Nat} (short : g < s.costAt w.pc) :
    Fails ((s.slowStep w.pc).run (Machine.handle host) (w.withGas g)) := by
  by_cases invalid : opAt s.env.code w.pc = .invalid
  · exact (fails_invalid host _ runs invalid).1
  · have charged : opAt s.env.code w.pc ≠ .stop := fun stop => by
      rw [costAt_stop stop] at short
      omega
    unfold slowStep
    rw [slowOp_of_runs runs charged invalid, bind_assoc]
    have within : Within (May s.env false) (Code.charge (s.costAt w.pc)) := inferInstance
    exact (fails_of_stops within ((Machine.charge_meters host _ w g).2 short)).bind _

/-- The reference follows the last opcode of a chunk, its cost already collected. -/
theorem tracks_last {w : Machine} (inside : w.pc < s.env.code.length) (runs : s.Runs w.pc)
    (ends : stop = w.pc + (opAt s.env.code w.pc).len) (fuel g : Nat) : s.Tracks host 1 (w.withGas (g + s.costAt w.pc))
      ((s.chunkLoop stop (fuel + 1)).run (Machine.handle host) (w.withGas g)) := by
  rw [chunkLoop_last (m := w.withGas g) fuel runs ends]
  by_cases invalid : opAt s.env.code w.pc = .invalid
  · have slow := (fails_invalid host (w.withGas (g + s.costAt w.pc)) runs invalid).1
    refine tracks_of_fails (fails_invalid host _ runs invalid).2 (k := 0 + 1) ?_
    rw [interpret_withoutChunks_succ 0 (m := w.withGas (g + s.costAt w.pc)) inside]
    exact slow.bind _
  · have step := tracks_slowStep host (m := w.withGas (g + s.costAt w.pc)) inside
    rw [Machine.withGas_pc, slowStep_last runs invalid] at step
    exact step

/-! ## Whole chunks -/

theorem tracks_bad {least fuel : Nat} (straight : Straight s.env.code pc body mid)
    (plain : ∀ p ∈ body, (opAt s.env.code p).isGasChunkTerminator = false)
    (runs : ∀ p ∈ body, s.Runs p) (bad : ¬ s.Runs mid) (inside : mid < s.env.code.length)
    (before : mid < stop) (start : m.pc = pc) (g : Nat) :
    s.Tracks host least m ((s.chunkLoop stop (body.length + (fuel + 1))).run (Machine.handle host) (m.withGas g)) := by
  have within := parts_within plain
  refine tracks_of_fails (k := body.length + (0 + 1)) ?_ ?_
  · rw [chunkLoop_body (m := m.withGas g) straight plain runs before.le (fuel + 1) start]
    refine fails_bind (inOrder_within within) fun _ m' reached => ?_
    have here := inOrder_pc (m := m.withGas g) (fun _ _ _ => onward_pc) straight start reached
    rw [chunkLoop_succ fuel (by omega), here, fastOp_of_not_runs bad]
    exact ⟨_, m', rfl⟩
  · rw [interpret_body straight plain runs (0 + 1) start]
    refine fails_bind (paidInOrder_within (fun _ => inferInstance) within) fun _ m' reached => ?_
    have here := paidInOrder_pc straight start reached
    obtain ⟨st, fails⟩ := slowOp_of_not_runs bad
    rw [interpret_withoutChunks_succ 0 (by omega), here, slowStep, fails]
    exact ⟨st, m', rfl⟩

theorem costAt_le (runs : s.Runs pc) : s.costAt pc ≤ 2 ^ 15 := by
  have nonneg := s.tables.cost_nonneg s.env.rev _ runs.1
  have small := BitVec.toInt_lt (x := s.tables.gasCost s.env.rev (byteAt s.env.code pc))
  simp only [costAt, baseCost, InstructionTables.cost64]
  omega

theorem amounts_parts_le (runs : ∀ p ∈ body, s.Runs p) : amounts (s.parts body) ≤ body.length * 2 ^ 15 := by
  induction body with
  | nil => simp [parts]
  | cons p body ih =>
    have here := costAt_le (runs p List.mem_cons_self)
    have rest := ih fun q hq => runs q (List.mem_cons_of_mem _ hq)
    simp only [parts, List.map_cons, amounts_cons, List.length_cons] at rest ⊢
    omega

/-- **The reference follows a chunk** that is paid for at its start. -/
theorem tracks_chunk {total : Nat} (fits : s.env.code.length + 33 ≤ 2 ^ 32)
    (chunk : IsChunk s.env.code (s.tables.cost64 s.env.rev) 0 m.pc stop total)
    (entry : m.pc < stop) (inside : m.pc < s.env.code.length) (enough : total ≤ m.gas) :
    s.Tracks host 1 m ((do Code.charge total; s.chunkLoop stop (stop - m.pc)).run
      (Machine.handle host) m) := by
  have upto := chunk.stop_le (by omega)
  obtain ⟨body, mid, straight, plain, ends⟩ := chunk
  have length := straight.length_le
  have midStop : mid ≤ stop := by
    rcases ends with ⟨rfl, -⟩ | ⟨-, -, rfl, -⟩ <;> omega
  have charged := (Machine.charge_meters host total m m.gas).1 enough
  rw [Machine.withGas_self] at charged
  rw [run_bind_ok charged]
  rcases straight.split_first (fun p => ¬ s.Runs p) with all | ⟨pre, p, before, pres, mem, bad⟩
  · have runs : ∀ p ∈ body, s.Runs p := fun p hp => not_not.mp (all p hp)
    have sum := amounts_parts_le runs
    rw [← amounts_parts] at ends
    rcases ends with ⟨rfl, cost⟩ | ⟨insideMid, -, ending, cost⟩
    · -- the chunk ends at the next block's start or at the end of the code
      obtain ⟨fuel, hfuel⟩ := Nat.exists_eq_add_of_le (show body.length ≤ mid - m.pc by omega)
      rw [hfuel, chunkLoop_body (m := m.withGas (m.gas - total)) straight plain runs le_rfl _ rfl]
      have some : 0 < body.length := by
        cases straight with
        | nil => omega
        | cons => exact Nat.succ_pos _
      refine (tracks_body 0 0 straight plain runs rfl (by omega) enough
        (fun w g here => ?_) (fun _ _ _ no => absurd no (Nat.not_lt_zero _))).mono some
      rw [chunkLoop_past fuel (by rw [Machine.withGas_pc, here])]
      exact ⟨0, le_rfl, fun n => by rw [Nat.zero_add]; rfl⟩
    · -- the chunk ends with a terminator
      have := (opAt s.env.code mid).len_pos
      obtain ⟨fuel, hfuel⟩ := Nat.exists_eq_add_of_le
        (show body.length + 1 ≤ stop - m.pc by omega)
      rw [hfuel, Nat.add_assoc, Nat.add_comm 1]
      by_cases last : s.Runs mid
      · have lastCost := costAt_le last
        rw [chunkLoop_body (m := m.withGas (m.gas - total)) straight plain runs midStop _ rfl]
        refine (tracks_body 1 (s.costAt mid) straight plain runs rfl ?_ enough
          (fun w g here => ?_) (fun w g here short => ?_)).mono (Nat.le_add_left 1 _)
        · simp only [costAt, baseCost] at cost lastCost ⊢
          omega
        · subst here
          exact tracks_last insideMid last ending fuel g
        · subst here
          refine ⟨0 + 1, ?_⟩
          rw [interpret_withoutChunks_succ 0 (m := w.withGas g) insideMid]
          exact (fails_short last short).bind _
      · exact tracks_bad straight plain runs last insideMid (by omega) rfl _
  · -- an opcode the revision lacks comes first
    have lt := straight.mem_inside p mem
    have := before.length_le
    obtain ⟨fuel, hfuel⟩ := Nat.exists_eq_add_of_le (show pre.length + 1 ≤ stop - m.pc by omega)
    rw [hfuel, Nat.add_assoc, Nat.add_comm 1]
    exact tracks_bad before (fun q hq => plain q (pres q hq).1)
      (fun q hq => not_not.mp (pres q hq).2) bad lt.1 (by omega) rfl _

/-! ## Rounds and runs -/

/-- The chunks of the cache are chunks of the code, at the costs that the loop charges. -/
def Chunked (s : Setup) : Prop :=
  s.env.code.length + 33 ≤ 2 ^ 32 ∧ ∀ pc, pc < s.cache.gasChunkEnd pc →
    IsChunk s.env.code (s.tables.cost64 s.env.rev) 0 pc (s.cache.gasChunkEnd pc) (s.cache.gasChunkCost pc)

section Runs

theorem tracks_round (chunked : s.Chunked) (host : Host) (inside : m.pc < s.env.code.length) :
    s.Tracks host 1 m ((s.round m.pc).run (Machine.handle host) m) := by
  unfold round
  split
  · rename_i entry
    rw [run_bind_ok (p := Code.gas) (a := m.gas) rfl]
    split
    · rename_i enough
      exact tracks_chunk chunked.1 (chunked.2 m.pc entry) entry inside enough
    · exact tracks_slowStep host inside
  · exact tracks_slowStep host inside

theorem tracks_of_eq {k : Nat} {h : Halt}
    (eq : (s.withoutChunks.interpret k).run (Machine.handle host) m = (.error h, m')) :
    s.Tracks host 0 m (.error h, m') := by
  cases h with
  | finish st => exact ⟨k, eq⟩
  | fail st => exact ⟨k, st, m', eq⟩

theorem interpret_more {rounds : Nat} {h : Halt}
    (ended : (s.interpret rounds).run (Machine.handle host) m = (.error h, m')) (more : Nat) :
    (s.interpret (rounds + more)).run (Machine.handle host) m = (.error h, m') := by
  induction rounds generalizing m with
  | zero => cases ended
  | succ rounds ih =>
    rw [Nat.add_right_comm]
    by_cases inside : m.pc < s.env.code.length
    · rw [interpret_inside _ inside, run_bind] at ended ⊢
      split at ended
      · exact ih ended
      · exact ended
    · rw [interpret_outside _ inside] at ended ⊢
      exact ended

theorem tracks_interpret (chunked : s.Chunked) {rounds : Nat} {h : Halt}
    (ended : (s.interpret rounds).run (Machine.handle host) m = (.error h, m')) :
    s.Tracks host 0 m (.error h, m') := by
  induction rounds generalizing m with
  | zero => cases ended
  | succ rounds ih =>
    by_cases inside : m.pc < s.env.code.length
    · rw [interpret_inside _ inside, run_bind] at ended
      have first := tracks_round chunked host inside
      split at ended
      · rename_i m₁ round
        rw [round] at first
        obtain ⟨k, -, reach⟩ := first
        exact ((ih ended).before reach).mono (Nat.zero_le _)
      · rename_i round
        cases ended
        rw [round] at first
        exact first.mono (Nat.zero_le _)
    · rw [interpret_outside _ inside] at ended
      refine tracks_of_eq (k := 0 + 1) ?_
      rw [interpret_outside (s := s.withoutChunks) 0 inside, ended]

end Runs

end Setup

/-! ## The agreement -/

/-- Two ends of a frame its caller cannot tell apart: both succeed or both revert with the same
output, gas, refund and host calls, or both fail, give up their gas and take the refund back to
`refund`, its value at the frame's entry. -/
def SameEnd (refund : Int) (h : Halt) (m : Machine) (h' : Halt) (m' : Machine) : Prop :=
  (((exeResult refund m h).status = .success ∨ (exeResult refund m h).status = .revert) ∧
    exeResult refund m h = exeResult refund m' h' ∧ m.trace = m'.trace) ∨
  ((exeResult refund m h).status.isFailure = true ∧
    (exeResult refund m' h').status.isFailure = true ∧
    (exeResult refund m h).gasLeft = 0 ∧ (exeResult refund m' h').gasLeft = 0 ∧
    (exeResult refund m h).refund = refund ∧ (exeResult refund m' h').refund = refund)

/-- A frame ends with `success` or `revert`, or is stopped with a failure status. -/
theorem Ends.status {host : Host} {s : Setup} {m m' : Machine} {h : Halt} (ends : Ends host s m h m') :
    (∃ st, h = .fail st ∧ st.isFailure = true) ∨ (∃ st, h = .finish st ∧ st.isFailure = false) := by
  obtain ⟨rounds, eq⟩ := ends
  obtain fails | ⟨st, rfl, -, ok⟩ := run_stop (Machine.handle_stop host) (s.interpret_within rounds) eq
  · exact .inl fails
  · exact .inr ⟨st, rfl, ok⟩

theorem Ends.unique {host : Host} {s : Setup} {m m₁ m₂ : Machine} {h₁ h₂ : Halt}
    (first : Ends host s m h₁ m₁) (second : Ends host s m h₂ m₂) : h₁ = h₂ ∧ m₁ = m₂ := by
  obtain ⟨n₁, eq₁⟩ := first
  obtain ⟨n₂, eq₂⟩ := second
  have more₁ := Setup.interpret_more eq₁ n₂
  have more₂ := Setup.interpret_more eq₂ n₁
  rw [Nat.add_comm, more₂] at more₁
  cases more₁
  exact ⟨rfl, rfl⟩

theorem Ends.withoutChunks {host : Host} {s : Setup} (chunked : s.Chunked) {m m' : Machine} {h : Halt}
    (ends : Ends host s m h m') :
    ∃ h' m'', Ends host s.withoutChunks m h' m'' ∧ SameEnd s.env.refundSnapshot h m' h' m'' := by
  obtain ⟨rounds, eq⟩ := ends
  have follows := Setup.tracks_interpret chunked eq
  obtain ⟨st, rfl, bad⟩ | ⟨st, rfl, ok⟩ := Ends.status ⟨rounds, eq⟩
  · obtain ⟨k, st', m'', eq'⟩ := follows
    obtain ⟨st'', same, bad'⟩ | ⟨_, no, -⟩ := Ends.status ⟨k, eq'⟩
    · cases same
      exact ⟨.fail st', m'', ⟨k, eq'⟩, .inr ⟨bad, bad', rfl, rfl, rfl, rfl⟩⟩
    · cases no
  · obtain ⟨k, eq'⟩ := follows
    refine ⟨.finish st, m', ⟨k, eq'⟩, .inl ⟨?_, rfl, rfl⟩⟩
    cases st <;> first | exact .inl rfl | exact .inr rfl | cases ok

end Dtvm
