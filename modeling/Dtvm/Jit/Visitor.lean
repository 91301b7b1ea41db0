import Dtvm.Jit.Summaries

/-!
# The visitor and the analyzer cut the code in the same places

`EVMByteCodeVisitor::decode` goes through the code once more after the analyzer. It begins a block at the start,
after a `JUMPI` and at the end of each run of `JUMPDEST`s, translates what follows, and skips what follows an
opcode that ends a block, or a block whose bounds are known to be violated.

The loop is modelled with where it goes on, how many operands a handler takes and leaves, and whether the block
goes on; the operands and the generated code are left out, and so is the build that lifts the stack
(`ZEN_ENABLE_EVM_STACK_SSA_LIFT`): no block is lifted here. Two assertions can stop it: that a block begins where
the analyzer has one, and that a handler finds its operands. It runs to the end (`decode_cuts`): it translates
what the analyzer has scanned, and what it skips belongs to no block that control can enter.
-/

namespace Dtvm.Jit

open Analyzer

structure CompilerTables extends StackTables where
  /-- A row without a name is empty: the compiler takes every other row for an opcode of the revision. -/
  nameless : ∀ rev b, defined rev b = false →
    gasCost rev b = 0 ∧ stackHeightRequired rev b = 0 ∧ stackHeightChange rev b = 0

def CompilerTables.isOpcodeDefined (tables : CompilerTables) (rev : Revision) (b : UInt8) : Bool :=
  tables.defined rev b || (tables.gasCost rev b != 0 || tables.stackHeightRequired rev b != 0 ||
    tables.stackHeightChange rev b != 0)

theorem CompilerTables.isOpcodeDefined_eq (tables : CompilerTables) (rev : Revision) (b : UInt8) :
    tables.isOpcodeDefined rev b = tables.defined rev b := by
  cases known : tables.defined rev b with
  | true => rw [isOpcodeDefined, known, Bool.true_or]
  | false =>
    obtain ⟨cost, required, change⟩ := tables.nameless rev b known
    rw [isOpcodeDefined, known, cost, required, change]
    rfl

/-! ## The loop -/

/-- The variables of `decode`, and what it has done. -/
structure Decoding where
  ip : Nat := 0
  inDeadCode : Bool := false
  /-- The number of operands on the logical stack. -/
  stack : Nat := 0
  /-- The blocks begun, the latest first, each with the opcodes translated since. -/
  begun : List (Nat × List Nat) := []
  /-- The opcodes that are dead. -/
  skipped : List Nat := []
  /-- The `JUMPDEST`s. -/
  joined : List Nat := []
deriving DecidableEq, Repr

section Decode

/-- `handleBeginBlock` finds that the bounds of the stack are violated. -/
def trapsAtEntry (info : BlockInfo) : Bool :=
  decide (maxStack < -info.minStackHeight) || decide (maxStack < info.maxStackHeight)

/-- The operands on the logical stack after `handleBeginBlock`: what is popped from the stack in memory. -/
def heldAtEntry (info : BlockInfo) : Nat := (-info.minPopHeight).toNat

/-- `handleBeginBlock`. Without a block it fails an assertion. -/
def Decoding.beginBlock (infos : List BlockInfo) (pc : Nat) (v : Decoding) : Option Decoding :=
  (find? infos pc).map fun info =>
    if trapsAtEntry info then
      { v with inDeadCode := true, stack := 0, begun := (pc, []) :: v.begun }
    else
      { v with inDeadCode := false, stack := heldAtEntry info, begun := (pc, []) :: v.begun }

def Decoding.translate (v : Decoding) : Decoding :=
  { v with begun := v.begun.modifyHead fun e => (e.1, e.2 ++ [v.ip]) }

/-- `finalizeBlockExit`: the logical stack is drained, and what follows is dead. -/
def Decoding.finalizeBlockExit (v : Decoding) : Decoding := { v with inDeadCode := true, stack := 0 }

/-- The cases of `decode`'s `switch`, but for `JUMPDEST`. A handler without its operands fails an assertion. -/
def Decoding.handle (code : Bytes) (infos : List BlockInfo) (v : Decoding) : Option Decoding :=
  let op := opAt code v.ip
  if v.stack < op.stackOp.need then none
  else match op with
    | .stop | .return' | .revert | .invalid | .selfdestruct | .jump | .unknown =>
      some { v.translate.finalizeBlockExit with ip := v.ip + 1 }
    | .jumpi =>
      let fallthroughPC :=
        if hasCanonicalJumpDest code (v.ip + 1) then getCanonicalJumpDestPC code (v.ip + 1) else v.ip + 1
      { v.translate.finalizeBlockExit with ip := v.ip + 1 }.beginBlock infos fallthroughPC
    | _ =>
      some { v.translate with
        ip := v.ip + op.len, stack := v.stack - op.stackOp.need + op.stackOp.gives }

/-- The case of `JUMPDEST`, which takes a whole run. -/
def Decoding.join (code : Bytes) (infos : List BlockInfo) (v : Decoding) : Option Decoding :=
  let runEnd := rangeEnd code code.length v.ip
  { v.finalizeBlockExit with
    ip := runEnd + 1
    joined := v.joined ++ List.range' v.ip (runEnd + 1 - v.ip) }.beginBlock infos runEnd

variable (tables : CompilerTables) (rev : Revision) (code : Bytes) (infos : List BlockInfo)

def Decoding.step (v : Decoding) : Option Decoding :=
  if opAt code v.ip = .jumpdest then v.join code infos
  else if v.inDeadCode then
    some { v with ip := v.ip + (opAt code v.ip).len, skipped := v.skipped ++ [v.ip] }
  else if tables.isOpcodeDefined rev (byteAt code v.ip) = false then
    some { v.translate.finalizeBlockExit with ip := v.ip + 1 }
  else v.handle code infos

def Decoding.loop : Nat → Decoding → Option Decoding
  | 0, v => some v
  | fuel + 1, v => if v.ip < code.length then (v.step tables rev code infos).bind (loop fuel) else some v

def decode : Option Decoding :=
  if 0 < code.length ∧ opAt code 0 = .jumpdest then Decoding.loop tables rev code infos code.length {}
  else (Decoding.beginBlock infos 0 {}).bind (Decoding.loop tables rev code infos code.length)

end Decode

/-! ## What is scanned for a block -/

/-- Opcodes up to the first one for which the compiler has no case. -/
def translatable (code : Bytes) : List Nat → List Nat
  | [] => []
  | pc :: pcs => pc :: if opAt code pc = .unknown then [] else translatable code pcs

theorem translatable_subset (code : Bytes) (pcs : List Nat) : translatable code pcs ⊆ pcs := by
  induction pcs with
  | nil => exact List.Subset.refl _
  | cons pc pcs ih =>
    rw [translatable]
    split
    · exact List.cons_subset_cons _ (List.nil_subset _)
    · exact List.cons_subset_cons _ ih

section Scanned

variable {tables : StackTables} {rev : Revision} {code : Bytes}

/-- The opcodes of a scan are instructions from its point on, and no `JUMPDEST`s. -/
theorem scannedOpcodes_mem (fuel n : Nat) {p : Nat}
    (mem : p ∈ scannedOpcodes tables rev code fuel (instrOffset code n)) :
    instrOffset code n ≤ p ∧ p < code.length ∧ opAt code p ≠ .jumpdest := by
  induction fuel generalizing n with
  | zero => cases mem
  | succ fuel ih =>
    rw [scannedOpcodes] at mem
    split at mem
    · next inside =>
      split at mem
      · cases mem
      · next other =>
        have here (eq : p = instrOffset code n) :
            instrOffset code n ≤ p ∧ p < code.length ∧ opAt code p ≠ .jumpdest := by
          rw [eq]
          exact ⟨Nat.le_refl _, inside, other⟩
        split at mem
        · exact here (List.mem_singleton.mp mem)
        · split at mem
          · rcases List.mem_cons.mp mem with eq | later
            · exact here eq
            · rw [← instrOffset_succ inside] at later
              obtain ⟨le, rest⟩ := ih (n + 1) later
              exact ⟨Nat.le_trans (instrOffset_le_succ code n) le, rest⟩
          · exact here (List.mem_singleton.mp mem)
    · cases mem

/-- What is scanned for a block lies before the next one, and a `JUMPI` falls through to it. -/
theorem scannedOpcodes_next (body : BlockBody) (fuel : Nat) {n : Nat} {s : Scan}
    (aligned : instrOffset code n = s.scanPC) (enough : code.length ≤ s.scanPC + fuel) {p : Nat}
    (mem : p ∈ scannedOpcodes tables rev code fuel s.scanPC) :
    (∀ x, (scanBody tables rev code body fuel s).next = some x → p < x.entryPC) ∧
      (tables.defined rev (byteAt code p) = true → opAt code p = .jumpi →
        (scanBody tables rev code body fuel s).next = some (fallthroughNext code p)) := by
  induction fuel generalizing n s with
  | zero => cases mem
  | succ fuel ih =>
    have next := scanBody_next tables rev body (fuel + 1) s aligned enough
    rw [scannedOpcodes] at mem
    split at mem
    · next inside =>
      split at mem
      · cases mem
      · next other =>
        have before (eq : p = s.scanPC) :
            ∀ x, (scanBody tables rev code body (fuel + 1) s).next = some x → p < x.entryPC :=
          fun x found => eq ▸ next.lt_entry other found
        split at mem
        · next undefined =>
          have eq := List.mem_singleton.mp mem
          refine ⟨before eq, fun defined => ?_⟩
          rw [eq, undefined] at defined
          cases defined
        · next defined =>
          rw [scanBody, if_pos inside, if_neg other, if_neg defined] at before ⊢
          split at mem
          · next r straight =>
            have grows := instrOffset_succ (aligned ▸ inside)
            rw [aligned] at grows
            have pos := Opcode.len_pos (opAt code s.scanPC)
            rw [straight] at before ⊢
            rcases List.mem_cons.mp mem with eq | later
            · refine ⟨before eq, fun _ jumpi => ?_⟩
              rw [eq] at jumpi
              rw [straightOp, jumpi] at straight
              cases straight
            · exact ih (s := s.apply r.1 r.2 (s.scanPC + (opAt code s.scanPC).len)) grows (by
                show code.length ≤ s.scanPC + (opAt code s.scanPC).len + fuel
                omega) later
          · next ends =>
            have eq := List.mem_singleton.mp mem
            rw [ends] at before ⊢
            refine ⟨before eq, fun _ jumpi => ?_⟩
            rw [eq] at jumpi
            rw [jumpi, eq]
            rfl
    · cases mem

end Scanned

/-! ## Blocks that control can enter -/

section Entered

variable (tables : StackTables) (rev : Revision) (code : Bytes) (infos : List BlockInfo)

/-- The opcodes that are translated for a block: none if it is a trap. -/
def translatedFor (b : BlockInfo) : List Nat :=
  if trapsAtEntry b then [] else translatable code (b.opcodes tables rev code)

/-- Control can enter a block: at the start, by a jump, or from a `JUMPI` before it that is translated. -/
inductive Enterable : BlockInfo → Prop
  | first {b : BlockInfo} (mem : b ∈ infos) (entry : b.entryPC = 0) : Enterable b
  | dest {b : BlockInfo} (mem : b ∈ infos) (isDest : IsJumpDest code b.entryPC) : Enterable b
  | falls {b c : BlockInfo} (enterable : Enterable b) {p : Nat} (translated : p ∈ translatedFor tables rev code b)
    (defined : tables.defined rev (byteAt code p) = true) (jumpi : opAt code p = .jumpi) (mem : c ∈ infos)
    (entry : c.entryPC = (fallthroughNext code p).entryPC) : Enterable c

def Reached (p : Nat) : Prop :=
  ∃ b, Enterable tables rev code infos b ∧ p ∈ translatedFor tables rev code b

/-- No block that control can enter has anything left at a program counter: the next one is entered by a
`JUMPDEST`. -/
structure Dead (ip : Nat) : Prop where
  later : ∀ c, Enterable tables rev code infos c →
    (∃ p, p ∈ translatedFor tables rev code c) → ip ≤ c.entryPC →
      ∃ q, IsJumpDest code q ∧ ip ≤ q ∧ q ≤ c.entryPC
  earlier : ∀ c, Enterable tables rev code infos c → c.entryPC < ip →
    ∀ p ∈ translatedFor tables rev code c, p < ip

variable {tables rev code infos} {b : BlockInfo}

theorem Enterable.mem (h : Enterable tables rev code infos b) : b ∈ infos := by
  cases h with
  | first mem | dest mem | falls _ _ _ _ mem => exact mem

/-- What is translated for a block lies in it, before the next one. -/
structure InBlock (tables : StackTables) (rev : Revision) (code : Bytes) (b : BlockInfo) (p : Nat) : Prop where
  from_ : b.bodyStartPC ≤ p
  inside : p < code.length
  other : opAt code p ≠ .jumpdest
  before : ∀ x, (b.scanned tables rev code).next = some x → p < x.entryPC
  falls : tables.defined rev (byteAt code p) = true → opAt code p = .jumpi →
    (b.scanned tables rev code).next = some (fallthroughNext code p)

theorem inBlock (h : Analyzed tables rev code infos) (mem : b ∈ infos) {p : Nat}
    (translated : p ∈ translatedFor tables rev code b) : InBlock tables rev code b p := by
  have scanned : p ∈ b.opcodes tables rev code := by
    rw [translatedFor] at translated
    split at translated
    · cases translated
    · exact translatable_subset code _ translated
  obtain ⟨n, aligned⟩ := (h.starts mem).aligned
  rw [BlockBody.opcodes, ← aligned] at scanned
  obtain ⟨from_, inside, other⟩ := scannedOpcodes_mem _ _ scanned
  rw [aligned] at from_ scanned
  obtain ⟨before, falls⟩ := scannedOpcodes_next (s := ⟨b.bodyStartPC, [], 0, 0, 0, 0, 0⟩)
    (.start b.entryPC b.bodyStartPC b.isJumpDest) code.length aligned (Nat.le_add_left _ _) scanned
  exact ⟨from_, inside, other, before, falls⟩

/-- What follows a block is dead if nothing of the block is left and it does not fall through. -/
theorem dead_after (h : Analyzed tables rev code infos) (mem : b ∈ infos) {ip : Nat} (start : b.bodyStartPC ≤ ip)
    (before : ∀ x, (b.scanned tables rev code).next = some x → ip ≤ x.entryPC)
    (done : ∀ p ∈ translatedFor tables rev code b, p < ip ∧
      ¬ (tables.defined rev (byteAt code p) = true ∧ opAt code p = .jumpi)) :
    Dead tables rev code infos ip := by
  have distinct := h.resolved.distinct
  have body := (h.starts mem).le
  refine ⟨fun c enterable => ?_, fun c enterable lt p translated => ?_⟩
  · induction enterable with
    | @first c mem' entry =>
      rintro ⟨p, translated⟩ le
      -- The block itself is the only one at the start, and it is done.
      have same : c = b := distinct.eq mem' mem (by omega)
      rw [same] at translated
      have lt := (done p translated).1
      have from_ := (inBlock h mem translated).from_
      omega
    | @dest c mem' isDest => exact fun _ le => ⟨_, isDest, le, Nat.le_refl _⟩
    | @falls a c enterable q translated' defined jumpi mem' entry ih =>
      rintro ⟨p, translated⟩ le
      have falls := (inBlock h enterable.mem translated').falls defined jumpi
      have lt := (inBlock h enterable.mem translated').before _ falls
      have from_ := (inBlock h enterable.mem translated').from_
      have le' := (h.starts enterable.mem).le
      by_cases same : a.entryPC = b.entryPC
      · rw [distinct.eq enterable.mem mem same] at translated'
        exact absurd ⟨defined, jumpi⟩ (done q translated').2
      · rcases h.before enterable.mem mem same with earlier | later
        · -- The block falls through to `b` at the latest, which is done.
          obtain ⟨x, eq, le''⟩ := earlier.next
          rw [falls] at eq
          cases eq
          have here : c = b := distinct.eq mem' mem (by omega)
          rw [here] at translated
          have lt := (done p translated).1
          have from_ := (inBlock h mem translated).from_
          omega
        · obtain ⟨x, eq, le''⟩ := later.next
          obtain ⟨d, isDest, above, below⟩ := ih ⟨q, translated'⟩ (Nat.le_trans (before x eq) le'')
          exact ⟨d, isDest, above, by omega⟩
  · by_cases same : c.entryPC = b.entryPC
    · rw [distinct.eq enterable.mem mem same] at translated
      exact (done p translated).1
    · rcases h.before enterable.mem mem same with earlier | later
      · obtain ⟨x, eq, le⟩ := earlier.next
        have := (inBlock h enterable.mem translated).before x eq
        omega
      · obtain ⟨x, eq, le⟩ := later.next
        have := before x eq
        omega

namespace Dead

variable {n : Nat}

variable (h : Dead tables rev code infos (instrOffset code n))

include h

theorem skip (inside : instrOffset code n < code.length) (other : opAt code (instrOffset code n) ≠ .jumpdest) :
    Dead tables rev code infos (instrOffset code (n + 1)) := by
  have le := instrOffset_le_succ code n
  -- A destination from here on is not here.
  have later {q : Nat} (isDest : IsJumpDest code q) (above : instrOffset code n ≤ q) :
      instrOffset code (n + 1) ≤ q := by
    obtain ⟨⟨m, rfl⟩, -, op⟩ := isDest
    refine Nat.not_lt.mp fun below => ?_
    rw [instrOffset_succ inside] at below
    rw [eq_of_inside inside above below] at op
    exact other op
  refine ⟨fun c enterable some_ above => ?_, fun c enterable lt p translated => ?_⟩
  · obtain ⟨q, isDest, low, high⟩ := h.later c enterable some_ (Nat.le_trans le above)
    exact ⟨q, isDest, later isDest low, high⟩
  · by_cases earlier : c.entryPC < instrOffset code n
    · exact Nat.lt_of_lt_of_le (h.earlier c enterable earlier p translated) le
    · obtain ⟨q, isDest, low, high⟩ := h.later c enterable ⟨p, translated⟩ (Nat.not_lt.mp earlier)
      have := later isDest low
      omega

theorem not_reached (analyzed : Analyzed tables rev code infos) (other : opAt code (instrOffset code n) ≠ .jumpdest) :
    ¬ Reached tables rev code infos (instrOffset code n) := by
  rintro ⟨c, enterable, translated⟩
  by_cases earlier : c.entryPC < instrOffset code n
  · exact Nat.lt_irrefl _ (h.earlier c enterable earlier _ translated)
  · obtain ⟨q, isDest, low, high⟩ := h.later c enterable ⟨_, translated⟩ (Nat.not_lt.mp earlier)
    have from_ := (inBlock analyzed enterable.mem translated).from_
    have le := (analyzed.starts enterable.mem).le
    have here : q = instrOffset code n := by omega
    exact other (here ▸ isDest.2.2)

end Dead

end Entered

end Dtvm.Jit
