import Dtvm.Jit.AnalyzerEnds
import Dtvm.Jit.Visitor

/-!
# The visitor cuts the code as the analyzer does

The decode loop is followed opcode by opcode (`Follows`). It is inside a block, at a point of the analyzer's
scan of it, with the operands on the logical stack that the scan has seen; or in dead code; or right before a
run of `JUMPDEST`s (`Mode`). A `JUMPI` in front of a `JUMPDEST` begins the block after the run, and the
`JUMPDEST` begins it again: the first time nothing is translated (`Cut`).
-/

namespace Dtvm.Jit

open Analyzer OperandStack

section Cuts

variable (tables : StackTables) (rev : Revision) (code : Bytes) (infos : List BlockInfo)

/-- Blocks that have been begun, the latest first. Each is a block of the analyzer and is translated as it is
scanned. One that starts with a `JUMPDEST` may have been begun twice in a row. -/
inductive Cut : List (Nat × List Nat) → Prop
  | nil : Cut []
  | block {older : List (Nat × List Nat)} {b : BlockInfo} (mem : b ∈ infos) (cut : Cut older) :
    Cut ((b.entryPC, translatedFor tables rev code b) :: older)
  | again {older : List (Nat × List Nat)} {b : BlockInfo} (mem : b ∈ infos) (isDest : IsJumpDest code b.entryPC)
    (cut : Cut older) :
    Cut ((b.entryPC, translatedFor tables rev code b) :: (b.entryPC, []) :: older)

def Ready (pc : Nat) (begun : List (Nat × List Nat)) : Prop :=
  Cut tables rev code infos begun ∨
    ∃ older, begun = (pc, []) :: older ∧ IsJumpDest code pc ∧ Cut tables rev code infos older

structure Inside (b : BlockInfo) (done : List Nat) (fuel : Nat) (s : Scan) (v : Decoding) : Prop where
  enterable : Enterable tables rev code infos b
  passes : trapsAtEntry b = false
  begun : ∃ older, v.begun = (b.entryPC, done) :: older ∧ Ready tables rev code infos b.entryPC older
  opcodes : translatable code (b.opcodes tables rev code) =
    done ++ translatable code (scannedOpcodes tables rev code fuel v.ip)
  past : ∀ p ∈ done, p < v.ip ∧ opAt code p ≠ .jumpi
  from_ : b.bodyStartPC ≤ v.ip
  enough : code.length ≤ v.ip + fuel
  scan : scanBody tables rev code (.start b.entryPC b.bodyStartPC b.isJumpDest) fuel s =
    b.scanned tables rev code
  pc : s.scanPC = v.ip
  steady : s.Steady
  stack : v.stack + s.entryDepth = heldAtEntry b + s.stack.length

inductive Mode (v : Decoding) : Prop
  | inside {b : BlockInfo} {done : List Nat} {fuel : Nat} {s : Scan} (live : v.inDeadCode = false)
    (point : Inside tables rev code infos b done fuel s v)
  | dead (dead : v.inDeadCode = true) (cut : Cut tables rev code infos v.begun)
    (rest : Dead tables rev code infos v.ip)
  | joins (isDest : IsJumpDest code v.ip)
    (ready : Ready tables rev code infos (getCanonicalJumpDestPC code v.ip) v.begun)

/-- An opcode that is skipped: no block that control can enter has it. -/
structure Unreached (p : Nat) : Prop where
  instruction : ∃ n, instrOffset code n = p
  inside : p < code.length
  other : opAt code p ≠ .jumpdest
  not_reached : ¬ Reached tables rev code infos p

structure Done (v : Decoding) : Prop where
  aligned : ∃ n, instrOffset code n = v.ip
  joined : ∀ p, p ∈ v.joined ↔ IsJumpDest code p ∧ p < v.ip
  skipped : ∀ p, p ∈ v.skipped ↔ Unreached tables rev code infos p ∧ p < v.ip

structure Follows (v : Decoding) : Prop extends Done tables rev code infos v where
  mode : Mode tables rev code infos v

variable {tables rev code infos} {b : BlockInfo} {v : Decoding}

theorem translatedFor_of_passes (passes : trapsAtEntry b = false) :
    translatedFor tables rev code b = translatable code (b.opcodes tables rev code) := by
  rw [translatedFor, passes]
  rfl

theorem translatedFor_of_traps (traps : trapsAtEntry b = true) :
    translatedFor tables rev code b = [] := if_pos traps

theorem Ready.cut {older : List (Nat × List Nat)} (ready : Ready tables rev code infos b.entryPC older)
    (mem : b ∈ infos) :
    Cut tables rev code infos ((b.entryPC, translatedFor tables rev code b) :: older) := by
  rcases ready with cut | ⟨older, rfl, isDest, cut⟩
  · exact .block mem cut
  · exact .again mem isDest cut

theorem lt_instrOffset_succ {n : Nat} (inside : instrOffset code n < code.length) {p : Nat}
    (instruction : ∃ m, instrOffset code m = p) :
    p < instrOffset code (n + 1) ↔ p < instrOffset code n ∨ p = instrOffset code n := by
  have le := instrOffset_le_succ code n
  have pos := Opcode.len_pos (opAt code (instrOffset code n))
  have grows := instrOffset_succ inside
  obtain ⟨m, rfl⟩ := instruction
  constructor
  · intro below
    by_cases earlier : instrOffset code m < instrOffset code n
    · exact .inl earlier
    · exact .inr (eq_of_inside inside (Nat.not_lt.mp earlier) (grows ▸ below))
  · rintro (earlier | here)
    · exact Nat.lt_of_lt_of_le earlier le
    · omega

namespace Done

variable {v' : Decoding}

theorem next (h : Done tables rev code infos v) (inside : v.ip < code.length) (other : opAt code v.ip ≠ .jumpdest)
    (ip : v'.ip = v.ip + (opAt code v.ip).len) (joined : v'.joined = v.joined) (skipped : ∀ p, p ∈ v'.skipped ↔
      p ∈ v.skipped ∨ (p = v.ip ∧ ¬ Reached tables rev code infos v.ip)) :
    Done tables rev code infos v' := by
  obtain ⟨n, aligned⟩ := h.aligned
  rw [← aligned] at inside ip
  rw [← instrOffset_succ inside] at ip
  refine ⟨⟨n + 1, ip.symm⟩, fun p => ?_, fun p => ?_⟩
  · rw [joined, h.joined, ip]
    refine and_congr_right fun isDest => ?_
    rw [lt_instrOffset_succ inside isDest.1, aligned]
    refine ⟨.inl, fun h => h.resolve_right ?_⟩
    rintro rfl
    exact other isDest.2.2
  · rw [skipped, h.skipped, ip]
    constructor
    · rintro (⟨unreached, before⟩ | ⟨rfl, not_reached⟩)
      · exact ⟨unreached, (lt_instrOffset_succ inside unreached.instruction).mpr (.inl (aligned ▸ before))⟩
      · refine ⟨⟨⟨n, aligned⟩, aligned ▸ inside, other, not_reached⟩, ?_⟩
        exact (lt_instrOffset_succ inside ⟨n, aligned⟩).mpr (.inr aligned.symm)
    · rintro ⟨unreached, before⟩
      rcases (lt_instrOffset_succ inside unreached.instruction).mp before with earlier | here
      · exact .inl ⟨unreached, aligned ▸ earlier⟩
      · rw [aligned] at here
        exact .inr ⟨here, here ▸ unreached.not_reached⟩

theorem join (h : Done tables rev code infos v) {last : Nat} (ends : EndsRun code v.ip last)
    (isDest : IsJumpDest code v.ip) (ip : v'.ip = last + 1)
    (joined : v'.joined = v.joined ++ List.range' v.ip (last + 1 - v.ip)) (skipped : v'.skipped = v.skipped) :
    Done tables rev code infos v' := by
  have le := ends.le
  obtain ⟨m, after⟩ := ends.instrOffset_after isDest
  refine ⟨⟨m, after.trans ip.symm⟩, fun p => ?_, fun p => ?_⟩
  · rw [joined, List.mem_append, h.joined, List.mem_range'_1, ip, ends.isJumpDest_iff isDest]
    exact or_congr_right (and_congr_right fun _ => by omega)
  · rw [skipped, h.skipped, ip]
    refine and_congr_right fun unreached => ⟨fun before => by omega, fun before => ?_⟩
    refine Nat.not_le.mp fun above => ?_
    exact unreached.other (ends.run p above (by omega)).2

end Done

/-- A block begins with all the operands that its opcodes take from below. -/
theorem le_heldAtEntry (h : Analyzed tables rev code infos) (mem : b ∈ infos) :
    (b.scanned tables rev code).scan.entryDepth ≤ heldAtEntry b := by
  have popped : b.minPopHeight ≤ -((b.scanned tables rev code).scan.entryDepth : Int) := by
    rw [congrArg BlockBody.minPopHeight (h.scanned mem)]
    exact Int.min_le_right _ _
  rw [heldAtEntry]
  omega

theorem begins (h : Analyzed tables rev code infos)
    (enterable : Enterable tables rev code infos b) (done : Done tables rev code infos v)
    (ip : v.ip = b.bodyStartPC) (ready : Ready tables rev code infos b.entryPC v.begun) :
    ∃ v', v.beginBlock infos b.entryPC = some v' ∧ v'.ip = v.ip ∧ Follows tables rev code infos v' := by
  have mem := enterable.mem
  rw [Decoding.beginBlock, h.resolved.distinct.find?_eq mem, Option.map_some]
  refine ⟨_, rfl, ?_⟩
  cases traps : trapsAtEntry b with
  | true =>
    rw [if_pos rfl]
    refine ⟨rfl, ⟨done.aligned, done.joined, done.skipped⟩, .dead rfl ?_ ?_⟩
    · have cut := ready.cut mem
      rwa [translatedFor_of_traps traps] at cut
    · have next := scanBlock_next tables rev (h.starts mem) b.isJumpDest
      refine dead_after h mem (Nat.le_of_eq ip.symm) (fun x eq => ?_) fun p translated => ?_
      · exact ip ▸ (next.from_ x eq).1
      · rw [translatedFor_of_traps traps] at translated
        cases translated
  | false =>
    rw [if_neg Bool.false_ne_true]
    have point : Inside tables rev code infos b [] code.length ⟨b.bodyStartPC, [], 0, 0, 0, 0, 0⟩
        { v with
          inDeadCode := false, stack := heldAtEntry b, begun := (b.entryPC, []) :: v.begun } :=
      { enterable, passes := traps, begun := ⟨_, rfl, ready⟩, opcodes := by rw [ip]; rfl
        past := fun _ mem => absurd mem List.not_mem_nil
        from_ := Nat.le_of_eq ip.symm, enough := Nat.le_add_left _ _, scan := rfl
        pc := ip.symm, steady := ⟨Int.le_refl _, Int.le_refl _⟩, stack := rfl }
    exact ⟨rfl, ⟨done.aligned, done.joined, done.skipped⟩, .inside rfl point⟩

namespace Inside

variable {done : List Nat} {fuel : Nat} {s : Scan}

theorem reached (point : Inside tables rev code infos b done fuel s v) {rest : List Nat}
    (first : translatable code (scannedOpcodes tables rev code fuel v.ip) = v.ip :: rest) :
    v.ip ∈ translatedFor tables rev code b := by
  rw [translatedFor_of_passes point.passes, point.opcodes, first]
  exact List.mem_append_right _ List.mem_cons_self

variable (point : Inside tables rev code infos b done fuel s v) (inside : v.ip < code.length)
include point inside

theorem goes_on : ∃ k, fuel = k + 1 := by
  cases fuel with
  | zero => exact absurd inside (Nat.not_lt.mpr point.enough)
  | succ k => exact ⟨k, rfl⟩

variable (other : opAt code v.ip ≠ .jumpdest)
include other

theorem operands (h : Analyzed tables rev code infos)
    (defined : tables.defined rev (byteAt code v.ip) = true) : (effectAt tables rev code v.ip).need ≤ v.stack := by
  obtain ⟨k, rfl⟩ := point.goes_on inside
  obtain ⟨rest, first⟩ : ∃ rest, scannedOpcodes tables rev code (k + 1) v.ip = v.ip :: rest := by
    rw [scannedOpcodes, if_pos inside, if_neg other, if_neg (Bool.not_eq_false _ ▸ defined)]
    split <;> exact ⟨_, rfl⟩
  have summary := (scanBody_summary tables rev code (.start b.entryPC b.bodyStartPC b.isJumpDest) (k + 1)
    point.steady).1
  rw [point.scan, point.pc, first, List.map_cons] at summary
  have held := le_heldAtEntry h point.enterable.mem
  have ok : (s.summary.addAll (effectAt tables rev code v.ip :: rest.map (effectAt tables rev code))).entry ≤
      heldAtEntry b := summary ▸ held
  have stands : s.summary.Stands (heldAtEntry b) v.stack := by
    refine ⟨Nat.le_trans (Summary.le_addAll _ _).1 ok, ?_⟩
    have stack := point.stack
    show (v.stack : Int) = heldAtEntry b + (s.stack.length - s.entryDepth)
    omega
  exact stands.enough ok

/-- An opcode after which the scan or the compiler does not go on is the last one. -/
theorem last
    (ends : tables.defined rev (byteAt code v.ip) = false ∨ straightOp tables rev code v.ip = none ∨
      opAt code v.ip = .unknown) : translatable code (scannedOpcodes tables rev code fuel v.ip) = [v.ip] := by
  obtain ⟨k, rfl⟩ := point.goes_on inside
  have single : translatable code [v.ip] = [v.ip] := by
    rw [translatable]
    split <;> rfl
  rw [scannedOpcodes, if_pos inside, if_neg other]
  split
  · exact single
  · next defined =>
    rcases ends with undefined | none | unknown
    · exact absurd undefined defined
    · rw [none]
      exact single
    · split
      · rw [translatable, if_pos unknown]
      · exact single

/-- The opcode at which the loop is ends the block: it is translated, and the logical stack is drained. -/
theorem exit (d : Done tables rev code infos v) (one : (opAt code v.ip).len = 1)
    (last : translatable code (scannedOpcodes tables rev code fuel v.ip) = [v.ip]) :
    Done tables rev code infos { v.translate.finalizeBlockExit with ip := v.ip + 1 } ∧
      Cut tables rev code infos v.translate.begun := by
  have translated := point.reached last
  constructor
  · refine d.next inside other (by rw [one]) rfl fun p => ?_
    exact (or_iff_left fun h => h.2 ⟨b, point.enterable, translated⟩).symm
  · obtain ⟨older, begun, ready⟩ := point.begun
    have all : translatedFor tables rev code b = done ++ [v.ip] := by
      rw [translatedFor_of_passes point.passes, point.opcodes, last]
    show Cut tables rev code infos (v.begun.modifyHead _)
    rw [begun]
    show Cut tables rev code infos ((b.entryPC, done ++ [v.ip]) :: older)
    rw [← all]
    exact ready.cut point.enterable.mem

variable (h : Analyzed tables rev code infos) (d : Done tables rev code infos v)
include h d

theorem exit_dead (one : (opAt code v.ip).len = 1)
    (last : translatable code (scannedOpcodes tables rev code fuel v.ip) = [v.ip])
    (jumpi : ¬ (tables.defined rev (byteAt code v.ip) = true ∧ opAt code v.ip = .jumpi)) :
    Follows tables rev code infos { v.translate.finalizeBlockExit with ip := v.ip + 1 } := by
  obtain ⟨d', cut⟩ := point.exit inside other d one last
  have mem := point.enterable.mem
  refine ⟨d', .dead rfl cut (dead_after h mem ?_ (fun x eq => ?_) fun p translated => ?_)⟩
  · exact Nat.le_succ_of_le point.from_
  · exact (inBlock h mem (point.reached last)).before x eq
  · rw [translatedFor_of_passes point.passes, point.opcodes, last, List.mem_append, List.mem_singleton] at translated
    rcases translated with earlier | rfl
    · obtain ⟨before, not⟩ := point.past p earlier
      exact ⟨Nat.lt_succ_of_lt before, fun h => not h.2⟩
    · exact ⟨Nat.lt_succ_self _, jumpi⟩

theorem advance (live : v.inDeadCode = false)
    (defined : tables.defined rev (byteAt code v.ip) = true) {op : Op} {out : List AbstractValue}
    (straight : straightOp tables rev code v.ip = some (op, out)) (known : opAt code v.ip ≠ .unknown) :
    Follows tables rev code infos { v.translate with
      ip := v.ip + (opAt code v.ip).len
      stack := v.stack - (opAt code v.ip).stackOp.need + (opAt code v.ip).stackOp.gives } := by
  have operands := point.operands inside other h defined
  obtain ⟨k, rfl⟩ := point.goes_on inside
  obtain ⟨eq, fits⟩ := straightOp_effect defined straight
  rw [← eq] at operands
  have same : op = (opAt code v.ip).stackOp := eq.trans (effectAt_known defined known)
  have pos := Opcode.len_pos (opAt code v.ip)
  have scanned : scannedOpcodes tables rev code (k + 1) v.ip =
      v.ip :: scannedOpcodes tables rev code k (v.ip + (opAt code v.ip).len) := by
    rw [scannedOpcodes, if_pos inside, if_neg other, if_neg (Bool.not_eq_false _ ▸ defined), straight]
  have first : translatable code (scannedOpcodes tables rev code (k + 1) v.ip) =
      v.ip :: translatable code (scannedOpcodes tables rev code k (v.ip + (opAt code v.ip).len)) := by
    rw [scanned, translatable, if_neg known]
  have jumpi : opAt code v.ip ≠ .jumpi := by
    intro jumpi
    rw [straightOp, jumpi] at straight
    cases straight
  obtain ⟨older, begun, ready⟩ := point.begun
  have next : Inside tables rev code infos b (done ++ [v.ip]) k
      (s.apply op out (v.ip + (opAt code v.ip).len)) { v.translate with
        ip := v.ip + (opAt code v.ip).len
        stack := v.stack - (opAt code v.ip).stackOp.need + (opAt code v.ip).stackOp.gives } := by
    refine ⟨point.enterable, point.passes, ⟨older, ?_, ready⟩, ?_, fun p mem => ?_, ?_, ?_, ?_, rfl,
      point.steady.apply _ _, ?_⟩
    · show v.begun.modifyHead _ = _
      rw [begun]
      rfl
    · rw [point.opcodes, first, List.append_assoc]
      rfl
    · show p < v.ip + (opAt code v.ip).len ∧ _
      rcases List.mem_append.mp mem with earlier | here
      · obtain ⟨before, not⟩ := point.past p earlier
        exact ⟨by omega, not⟩
      · rw [List.mem_singleton.mp here]
        exact ⟨by omega, jumpi⟩
    · exact Nat.le_trans point.from_ (Nat.le_add_right _ _)
    · have enough := point.enough
      show code.length ≤ v.ip + (opAt code v.ip).len + k
      omega
    · have scan := point.scan
      rw [scanBody, point.pc, if_pos inside, if_neg other, if_neg (Bool.not_eq_false _ ▸ defined), straight] at scan
      exact scan
    · have summary := s.summary_apply op (v.ip + (opAt code v.ip).len) fits
      have height : ((s.apply op out (v.ip + (opAt code v.ip).len)).stack.length : Int) -
          (s.apply op out (v.ip + (opAt code v.ip).len)).entryDepth =
          (s.stack.length : Int) - s.entryDepth + op.gives - op.need := congrArg Summary.height summary
      have stack := point.stack
      show v.stack - (opAt code v.ip).stackOp.need + (opAt code v.ip).stackOp.gives + _ = _
      rw [← same]
      omega
  refine ⟨d.next inside other rfl rfl fun p => ?_, .inside live next⟩
  exact (or_iff_left fun h => h.2 ⟨b, point.enterable, point.reached first⟩).symm

omit other in
theorem falls (defined : tables.defined rev (byteAt code v.ip) = true)
    (jumpi : opAt code v.ip = .jumpi) : ∃ v', Decoding.beginBlock infos
        (if hasCanonicalJumpDest code (v.ip + 1) then getCanonicalJumpDestPC code (v.ip + 1) else v.ip + 1)
        { v.translate.finalizeBlockExit with ip := v.ip + 1 } = some v' ∧
      v'.ip = v.ip + 1 ∧ Follows tables rev code infos v' := by
  have other : opAt code v.ip ≠ .jumpdest := jumpi ▸ Opcode.noConfusion
  have one : (opAt code v.ip).len = 1 := by rw [jumpi]; rfl
  have last := point.last inside other (.inr (.inl (by rw [straightOp, jumpi])))
  obtain ⟨d', cut⟩ := point.exit inside other d one last
  have next := (inBlock h point.enterable.mem (point.reached last)).falls defined jumpi
  obtain ⟨c, mem, entry, start⟩ := h.next point.enterable.mem next
  have enterable : Enterable tables rev code infos c :=
    .falls point.enterable (point.reached last) defined jumpi mem entry
  rw [fallthroughNext] at entry start
  by_cases isDest : v.ip + 1 < code.length ∧ opAt code (v.ip + 1) = .jumpdest
  · have isDest : IsJumpDest code (v.ip + 1) := ⟨d'.aligned, isDest⟩
    rw [if_pos isDest.2] at entry
    have entry : c.entryPC = getCanonicalJumpDestPC code (v.ip + 1) := entry
    rw [if_pos ((hasCanonicalJumpDest_iff code _).mpr isDest), Decoding.beginBlock, ← entry,
      h.resolved.distinct.find?_eq mem, Option.map_some]
    have named := (Starts.canonical isDest)
    have isDest' : IsJumpDest code c.entryPC := by
      rw [entry]
      exact named.isJumpDest_of_lt (Nat.lt_succ_self _)
    refine ⟨_, rfl, ?_⟩
    -- Whether or not the block is a trap, its `JUMPDEST`s come next.
    have ready : Ready tables rev code infos (getCanonicalJumpDestPC code (v.ip + 1))
        ((c.entryPC, []) :: v.translate.begun) := .inr ⟨_, by rw [entry], entry ▸ isDest', cut⟩
    split <;> exact ⟨rfl, ⟨d'.aligned, d'.joined, d'.skipped⟩, .joins isDest ready⟩
  · have notDest : ¬ hasCanonicalJumpDest code (v.ip + 1) = true := by
      rw [hasCanonicalJumpDest_iff]
      exact fun h => isDest h.2
    rw [if_neg isDest] at entry start
    have entry : c.entryPC = v.ip + 1 := entry
    rw [if_neg notDest]
    have begun := begins h enterable d' start.symm (.inl cut)
    rwa [entry] at begun

end Inside

theorem Follows.ready (follows : Follows tables rev code infos v) (isDest : IsJumpDest code v.ip) :
    Ready tables rev code infos (getCanonicalJumpDestPC code v.ip) v.begun := by
  cases follows.mode with
  | inside live point =>
    rename_i b done fuel s
    obtain ⟨k, rfl⟩ := point.goes_on isDest.2.1
    obtain ⟨older, begun, ready⟩ := point.begun
    have all : translatedFor tables rev code b = done := by
      rw [translatedFor_of_passes point.passes, point.opcodes, scannedOpcodes, if_pos isDest.2.1, if_pos isDest.2.2]
      exact List.append_nil done
    rw [begun, ← all]
    exact .inl (ready.cut point.enterable.mem)
  | dead _ cut _ => exact .inl cut
  | joins _ ready => exact ready

theorem Follows.join (follows : Follows tables rev code infos v) (h : Analyzed tables rev code infos)
    (isDest : IsJumpDest code v.ip) :
    ∃ v', v.join code infos = some v' ∧ v.ip < v'.ip ∧ Follows tables rev code infos v' := by
  have ends := canonical_endsRun isDest
  have runEnd : rangeEnd code code.length v.ip = getCanonicalJumpDestPC code v.ip :=
    (rangeEnd_endsRun isDest.2.1 isDest.2.2 (Nat.le_add_left _ _)).unique ends
  obtain ⟨b, mem, entry, start⟩ := h.dest isDest
  have named : IsJumpDest code b.entryPC := entry ▸ ends.isJumpDest isDest ends.le (Nat.le_refl _)
  have done : Done tables rev code infos { v.finalizeBlockExit with
      ip := getCanonicalJumpDestPC code v.ip + 1
      joined := v.joined ++ List.range' v.ip (getCanonicalJumpDestPC code v.ip + 1 - v.ip) } :=
    follows.toDone.join ends isDest rfl rfl rfl
  obtain ⟨v', eq, ip, next⟩ := begins h (.dest mem named) done start.symm (entry ▸ follows.ready isDest)
  refine ⟨v', ?_, ?_, next⟩
  · rw [Decoding.join, runEnd, ← entry]
    rw [entry] at eq ⊢
    exact eq
  · rw [ip]
    exact Nat.lt_succ_of_le ends.le

end Cuts

/-! ## The loop -/

section Loop

variable {tables : CompilerTables} {rev : Revision} {code : Bytes} {infos : List BlockInfo}
variable {v : Decoding}

theorem mem_of_straightOp_none {tables : StackTables} {pc : Nat} (none : straightOp tables rev code pc = none) :
    opAt code pc ∈ [.jumpdest, .jump, .jumpi, .stop, .return', .invalid, .revert, .selfdestruct] := by
  unfold straightOp at none
  split at none
  iterate 8 · next op => rw [op]; decide
  all_goals cases none

theorem Follows.handle {b : BlockInfo} {done : List Nat} {fuel : Nat} {s : Scan}
    (follows : Follows tables.toStackTables rev code infos v)
    (point : Inside tables.toStackTables rev code infos b done fuel s v)
    (h : Analyzed tables.toStackTables rev code infos) (live : v.inDeadCode = false) (inside : v.ip < code.length)
    (other : opAt code v.ip ≠ .jumpdest) (defined : tables.defined rev (byteAt code v.ip) = true) :
    ∃ v', v.handle code infos = some v' ∧ v.ip < v'.ip ∧
      Follows tables.toStackTables rev code infos v' := by
  have operands : (opAt code v.ip).stackOp.need ≤ v.stack := by
    by_cases unknown : opAt code v.ip = .unknown
    · rw [unknown]
      exact Nat.zero_le _
    · rw [← effectAt_known defined unknown]
      exact point.operands inside other h defined
  have exits (ends : straightOp tables.toStackTables rev code v.ip = none ∨ opAt code v.ip = .unknown)
      (one : (opAt code v.ip).len = 1) (jumpi : opAt code v.ip ≠ .jumpi) :
      ∃ v', some { v.translate.finalizeBlockExit with ip := v.ip + 1 } = some v' ∧ v.ip < v'.ip ∧
        Follows tables.toStackTables rev code infos v' :=
    ⟨_, rfl, Nat.lt_succ_self _, point.exit_dead inside other h follows.toDone one
      (point.last inside other (.inr ends)) fun h => jumpi h.2⟩
  unfold Decoding.handle
  simp only
  rw [if_neg (Nat.not_lt.mpr operands)]
  split
  iterate 6
    · next op =>
      exact exits (.inl (by rw [straightOp, op])) (by rw [op]; rfl) (by rw [op]; exact Opcode.noConfusion)
  · next op => exact exits (.inr op) (by rw [op]; rfl) (by rw [op]; exact Opcode.noConfusion)
  · next jumpi =>
    obtain ⟨v', eq, ip, next⟩ := point.falls inside h follows.toDone defined jumpi
    exact ⟨v', eq, ip ▸ Nat.lt_succ_self _, next⟩
  · next stop return' revert invalid selfdestruct jump unknown jumpi =>
    cases straight : straightOp tables.toStackTables rev code v.ip with
    | none =>
      have ends := mem_of_straightOp_none straight
      simp only [List.mem_cons, List.not_mem_nil, or_false] at ends
      rcases ends with op | op | op | op | op | op | op | op
      · exact absurd op other
      · exact absurd op jump
      · exact absurd op jumpi
      · exact absurd op stop
      · exact absurd op return'
      · exact absurd op invalid
      · exact absurd op revert
      · exact absurd op selfdestruct
    | some r =>
      have pos := Opcode.len_pos (opAt code v.ip)
      have straight : _ = some (r.1, r.2) := straight
      refine ⟨_, rfl, Nat.lt_add_of_pos_right pos, ?_⟩
      exact point.advance inside other h follows.toDone live defined straight unknown

theorem Follows.step (follows : Follows tables.toStackTables rev code infos v)
    (h : Analyzed tables.toStackTables rev code infos) (inside : v.ip < code.length) :
    ∃ v', v.step tables rev code infos = some v' ∧ v.ip < v'.ip ∧
      Follows tables.toStackTables rev code infos v' := by
  obtain ⟨n, aligned⟩ := follows.aligned
  rw [Decoding.step]
  by_cases dest : opAt code v.ip = .jumpdest
  · rw [if_pos dest]
    exact follows.join h ⟨follows.aligned, inside, dest⟩
  · rw [if_neg dest]
    cases follows.mode with
    | joins isDest => exact absurd isDest.2.2 dest
    | dead dead cut rest =>
      rw [if_pos dead]
      have pos := Opcode.len_pos (opAt code v.ip)
      have grows := instrOffset_succ (aligned ▸ inside)
      rw [aligned] at grows
      refine ⟨_, rfl, Nat.lt_add_of_pos_right pos, ?_, .dead dead cut ?_⟩
      · refine follows.toDone.next inside dest rfl rfl fun p => ?_
        rw [List.mem_append, List.mem_singleton]
        rw [← aligned] at rest dest
        have not_reached := aligned ▸ rest.not_reached h dest
        exact or_congr_right (and_iff_left not_reached).symm
      · show Dead tables.toStackTables rev code infos (v.ip + (opAt code v.ip).len)
        rw [← grows]
        rw [← aligned] at rest dest inside
        exact rest.skip inside dest
    | inside live point =>
      rw [if_neg (live ▸ Bool.false_ne_true), tables.isOpcodeDefined_eq]
      split
      · next undefined =>
        refine ⟨_, rfl, Nat.lt_succ_self _, ?_⟩
        exact point.exit_dead inside dest h follows.toDone (len_of_undefined undefined)
          (point.last inside dest (.inl undefined)) fun h => Bool.false_ne_true (undefined ▸ h.1)
      · next defined =>
        exact follows.handle point h live inside dest (Bool.eq_true_of_not_eq_false defined)

theorem Follows.loop (h : Analyzed tables.toStackTables rev code infos) (fuel : Nat) {v : Decoding}
    (follows : Follows tables.toStackTables rev code infos v) (enough : code.length ≤ v.ip + fuel) :
    ∃ v', Decoding.loop tables rev code infos fuel v = some v' ∧ code.length ≤ v'.ip ∧
      Follows tables.toStackTables rev code infos v' := by
  induction fuel generalizing v with
  | zero => exact ⟨v, rfl, enough, follows⟩
  | succ fuel ih =>
    rw [Decoding.loop]
    by_cases inside : v.ip < code.length
    · obtain ⟨v', eq, lt, next⟩ := follows.step h inside
      rw [if_pos inside, eq]
      exact ih next (by omega)
    · rw [if_neg inside]
      exact ⟨v, rfl, Nat.not_lt.mp inside, follows⟩

end Loop

/-! ## The whole code -/

section Whole

variable (tables : CompilerTables) (rev : Revision) (code : Bytes)

theorem decode_follows {infos : List BlockInfo} (h : Analyzed tables.toStackTables rev code infos) :
    ∃ v, decode tables rev code infos = some v ∧ code.length ≤ v.ip ∧
      Follows tables.toStackTables rev code infos v := by
  have done : Done tables.toStackTables rev code infos {} := by
    refine ⟨⟨0, rfl⟩, fun p => ?_, fun p => ?_⟩
    · exact ⟨fun mem => absurd mem List.not_mem_nil, fun h => absurd h.2 (Nat.not_lt_zero p)⟩
    · exact ⟨fun mem => absurd mem List.not_mem_nil, fun h => absurd h.2 (Nat.not_lt_zero p)⟩
  rw [decode]
  by_cases isDest : 0 < code.length ∧ opAt code 0 = .jumpdest
  · rw [if_pos isDest]
    have joins : Mode tables.toStackTables rev code infos {} := .joins ⟨⟨0, rfl⟩, isDest⟩ (.inl .nil)
    exact Follows.loop h code.length ⟨done, joins⟩ (Nat.le_add_left _ _)
  · rw [if_neg isDest]
    obtain ⟨body, memBody, entry⟩ := (buildBlocks_laid tables.toStackTables rev code).2.1
    obtain ⟨b, mem, rfl⟩ := h.of_body memBody
    have entry : b.entryPC = 0 := entry.trans (if_neg isDest)
    have start : b.bodyStartPC = 0 := by
      refine Nat.eq_zero_of_not_pos fun pos => ?_
      exact isDest (entry ▸ ((h.starts mem).isJumpDest_of_lt (entry ▸ pos)).2)
    obtain ⟨v, eq, ip, follows⟩ := begins h (.first mem entry) done start.symm (.inl .nil)
    rw [entry] at eq
    rw [eq]
    exact follows.loop h code.length (Nat.le_add_left _ _)

theorem decode_runs : ∃ fuel a, (∀ k, fuel ≤ k → analyze tables.toStackTables rev code k = some a) ∧
    ∃ v, decode tables rev code a.blockInfos = some v ∧
      Cut tables.toStackTables rev code a.blockInfos v.begun ∧
      (∀ p, p ∈ v.skipped ↔ Unreached tables.toStackTables rev code a.blockInfos p) ∧
      ∀ p, p ∈ v.joined ↔ IsJumpDest code p := by
  obtain ⟨fuel, a, ends⟩ := analyze_total tables.toStackTables rev code
  have h := analyzed (ends fuel (Nat.le_refl _))
  obtain ⟨v, eq, past, follows⟩ := decode_follows tables rev code h
  refine ⟨fuel, a, ends, v, eq, ?_, fun p => ?_, fun p => ?_⟩
  · cases follows.mode with
    | inside live point =>
      rename_i b done fuel s
      obtain ⟨older, begun, ready⟩ := point.begun
      have nothing : scannedOpcodes tables.toStackTables rev code fuel v.ip = [] := by
        cases fuel with
        | zero => rfl
        | succ fuel => rw [scannedOpcodes, if_neg (Nat.not_lt.mpr past)]
      have all : translatedFor tables.toStackTables rev code b = done := by
        rw [translatedFor_of_passes point.passes, point.opcodes, nothing]
        exact List.append_nil done
      rw [begun, ← all]
      exact ready.cut point.enterable.mem
    | dead _ cut _ => exact cut
    | joins isDest => exact absurd isDest.2.1 (Nat.not_lt.mpr past)
  · rw [follows.skipped]
    exact and_iff_left_of_imp fun unreached => Nat.lt_of_lt_of_le unreached.inside past
  · rw [follows.joined]
    exact and_iff_left_of_imp fun isDest => Nat.lt_of_lt_of_le isDest.2.1 past

/-- **The visitor cuts the code into the analyzer's blocks.** No assertion stops it. Each time it begins a block,
the block is one of the analyzer's, and what it translates until the next begin is what is scanned for that
block, but for a begin that is repeated at once. It skips the opcodes of no block that control can enter. -/
theorem decode_cuts : ∃ fuel a, (∀ k, fuel ≤ k → analyze tables.toStackTables rev code k = some a) ∧
    ∃ v, decode tables rev code a.blockInfos = some v ∧
      Cut tables.toStackTables rev code a.blockInfos v.begun ∧
      ∀ p, p ∈ v.skipped ↔ Unreached tables.toStackTables rev code a.blockInfos p := by
  obtain ⟨fuel, a, analysis, v, eq, cut, skipped, -⟩ := decode_runs tables rev code
  exact ⟨fuel, a, analysis, v, eq, cut, skipped⟩

end Whole

/-- Tables without costs, with empty rows for what a revision lacks. -/
def emptyRows : CompilerTables where
  toInstructionTables := .free
  stackHeightRequired rev b :=
    if InstructionTables.free.defined rev b then (Opcode.ofByte b).stackOp.need else 0
  stackHeightChange rev b :=
    if InstructionTables.free.defined rev b then
      (Opcode.ofByte b).stackOp.gives - (Opcode.ofByte b).stackOp.need else 0
  push_defined := freeTables.push_defined
  documented rev b defined _ := by
    rw [if_pos defined, if_pos defined]
    exact ⟨rfl, rfl⟩
  nameless rev b undefined := by
    rw [undefined]
    exact ⟨rfl, rfl, rfl⟩

/-- A `JUMPI` in front of a `JUMPDEST`. -/
def forkedCode : Bytes := [0x60, 0, 0x60, 5, 0x57, 0x5b, 0x00]

/-- The visitor begins the block at the `JUMPDEST` twice, and the first time it translates nothing of it. -/
theorem decode_begins_twice : ∃ a v, analyze emptyRows.toStackTables .cancun forkedCode 10 = some a ∧
    decode emptyRows .cancun forkedCode a.blockInfos = some v ∧
    ∃ e ∈ v.begun, ∀ b ∈ a.blockInfos, b.entryPC = e.1 →
      e.2 ≠ b.opcodes emptyRows.toStackTables .cancun forkedCode := by
  obtain ⟨a, analysis⟩ := Option.isSome_iff_exists.mp
    (show (analyze emptyRows.toStackTables .cancun forkedCode 10).isSome by decide +kernel)
  have twice : ∀ a ∈ analyze emptyRows.toStackTables .cancun forkedCode 10,
      ∃ v ∈ decode emptyRows .cancun forkedCode a.blockInfos, ∃ e ∈ v.begun, ∀ b ∈ a.blockInfos,
        b.entryPC = e.1 → e.2 ≠ b.opcodes emptyRows.toStackTables .cancun forkedCode := by
    decide +kernel
  obtain ⟨v, eq, begun⟩ := twice a analysis
  exact ⟨a, v, analysis, eq, begun⟩

end Dtvm.Jit
