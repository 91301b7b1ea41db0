import Dtvm.Evm.BigEndian
import Dtvm.Evm.Static
import Dtvm.Jit.Depths

/-!
# Blocks that are entered with the stack in variables

The compiler enters a lifted block with as many variables as the analyzer says there are values on the stack. So
along every run, a lifted block must be entered with a stack of that depth. This holds as long as the run takes no
jump whose target the analyzer does not know (`run_lifted`), and not beyond (`reentered_not_lifted`).

A run is either about to enter a block, at one of its `JUMPDEST`s, or inside one, at a point of its scan
(`Located`): then the stack has the values that the scan knows, above those it has not looked at (`Matches`).
-/

namespace Dtvm.Jit.Analyzer

/-! ## Known values -/

/-- A value of the scan is right about a word: its number is known only if it fits 64 bits. -/
def AbstractValue.Describes (v : AbstractValue) (w : Word) : Prop :=
  v.knownConst = true → v.fitsU64 = true → w.toNat = v.low

theorem forall₂_unknown {words : List Word} {k : Nat} (length : words.length = k) :
    List.Forall₂ AbstractValue.Describes (List.replicate k .unknown) words := by
  refine List.forall₂_iff_zip.mpr ⟨by rw [List.length_replicate, length], fun mem => ?_⟩
  rw [(List.mem_replicate.mp (List.of_mem_zip mem).1).2]
  exact fun known => Bool.noConfusion known

theorem map_readPushByte (code : Bytes) (pc n : Nat) :
    (List.range n).map (readPushByte code (pc + 1) n) = immediate code pc n := by
  apply List.ext_getElem
  · rw [List.length_map, List.length_range, length_immediate]
  · intro i inside _
    rw [List.length_map, List.length_range] at inside
    rw [List.getElem_map, List.getElem_range, readPushByte]
    have taken : ((code.drop (pc + 1)).take n).length = min n (code.length - (pc + 1)) := by
      rw [List.length_take, List.length_drop]
    split
    · next within =>
      have here : pc + 1 + i < code.length := by omega
      simp only [immediate]
      rw [List.getElem_append_left (by rw [taken]; exact within), List.getElem_take, List.getElem_drop,
        byteAt, List.getD_eq_getElem?_getD, List.getElem?_eq_getElem here, Option.getD_some]
    · next past =>
      simp only [immediate]
      rw [List.getElem_append_right (by rw [taken]; exact Nat.not_lt.mp past), List.getElem_replicate]

theorem AbstractValue.constFromPush_describes (code : Bytes) (pc : Nat) {n : Nat} (fits : n ≤ 32) :
    (AbstractValue.constFromPush code (pc + 1) n).Describes (Cache.loadPushValue code pc n) := by
  intro _ high
  have split : List.range n = List.range (n - 8) ++ List.range' (n - 8) (n - (n - 8)) := by
    have joined : List.range' 0 (n - 8) ++ List.range' (0 + (n - 8)) (n - (n - 8)) =
        List.range' 0 (n - 8 + (n - (n - 8))) := List.range'_append_1
    rw [Nat.zero_add, Nat.add_sub_cancel' (Nat.sub_le n 8)] at joined
    rw [List.range_eq_range', List.range_eq_range', joined]
  have zeros : (List.range (n - 8)).map (readPushByte code (pc + 1) n) = List.replicate (n - 8) 0 := by
    rw [List.eq_replicate_iff, List.length_map, List.length_range]
    refine ⟨rfl, List.forall_mem_map.mpr fun i mem => ?_⟩
    exact eq_of_beq (List.all_eq_true.mp high i mem)
  have small := beNat_lt ((List.range' (n - 8) (n - (n - 8))).map (readPushByte code (pc + 1) n))
  rw [List.length_map, List.length_range'] at small
  have small : beNat ((List.range' (n - 8) (n - (n - 8))).map (readPushByte code (pc + 1) n)) < 2 ^ 64 :=
    Nat.lt_of_lt_of_le small (Nat.le_trans
      (Nat.pow_le_pow_right (by decide) (show n - (n - 8) ≤ 8 by omega)) (by decide))
  rw [toNat_loadPushValue code pc fits, ← map_readPushByte, split, List.map_append, beNat_append, zeros,
    beNat_zeros, Nat.zero_mul, Nat.zero_add]
  show _ = List.foldl _ 0 _
  rw [foldl_low, Nat.mod_eq_of_lt small]

/-! ## The stack at a point of a scan -/

open OperandStack

/-- The stack of a run that has entered the block with `d` values. -/
def Matches (d : Nat) (s : Scan) (words : List Word) : Prop :=
  ∃ top rest, words = top ++ rest ∧ List.Forall₂ AbstractValue.Describes s.stack top ∧
    rest.length + s.entryDepth = d

namespace Matches

variable {d : Nat} {s : Scan} {words : List Word}

variable (h : Matches d s words)

include h

theorem ensure {n : Nat} (enough : n ≤ words.length) : Matches d (s.ensureAbstractDepth n) words := by
  obtain ⟨top, rest, rfl, known, depth⟩ := h
  have same := known.length_eq
  rw [List.length_append, ← same] at enough
  refine ⟨top ++ rest.take (n - s.stack.length), rest.drop (n - s.stack.length), ?_, ?_, ?_⟩
  · rw [List.append_assoc, List.take_append_drop]
  · apply List.rel_append known (forall₂_unknown _)
    rw [List.length_take]
    omega
  · show (rest.drop _).length + (s.entryDepth + _) = d
    rw [List.length_drop]
    omega

omit h in
theorem length_ensure (s : Scan) (n : Nat) : n ≤ (s.ensureAbstractDepth n).stack.length := by
  show n ≤ (s.stack ++ List.replicate _ _).length
  rw [List.length_append, List.length_replicate]
  omega

theorem apply (op : Op) {out : List AbstractValue} {outWords : List Word}
    (enough : op.need ≤ words.length) (new : List.Forall₂ AbstractValue.Describes out outWords)
    (pc : Nat) : Matches d (s.apply op out pc) (op.run outWords words) := by
  obtain ⟨top, rest, rfl, known, depth⟩ := h.ensure enough
  have deep := length_ensure s op.need
  rw [known.length_eq] at deep
  exact ⟨op.run outWords top, rest, Op.run_append deep outWords rest, Op.forall₂_run known new, depth⟩

theorem depth : (words.length : Int) = d + ((s.stack.length : Int) - s.entryDepth) := by
  obtain ⟨top, rest, rfl, known, depth⟩ := h
  rw [List.length_append, known.length_eq]
  omega

theorem head {n : Nat} (enough : n + 1 ≤ words.length) {w : Word} (top : words.head? = some w) :
    (((s.ensureAbstractDepth (n + 1)).stack.head?).getD .unknown).Describes w := by
  obtain ⟨top', rest, rfl, known, -⟩ := h.ensure enough
  have deep := length_ensure s (n + 1)
  revert known deep
  generalize (s.ensureAbstractDepth (n + 1)).stack = stack
  intro known deep
  cases known with
  | nil => exact absurd deep (Nat.not_succ_le_zero n)
  | cons describes _ =>
    cases top
    exact describes

end Matches

/-! ## Runs through the blocks -/

theorem stackOp_plain {o : Opcode} (dup : ∀ n, o ≠ .dup n) (swap : ∀ n, o ≠ .swap n) :
    o.stackOp = .plain o.stackOp.need o.stackOp.gives := by
  cases o with
  | dup n => exact absurd rfl (dup n)
  | swap n => exact absurd rfl (swap n)
  | create op => cases op <;> rfl
  | _ => rfl

theorem push_le {b : UInt8} {n : Nat} (op : Opcode.ofByte b = .push n) : n ≤ 32 := by
  obtain ⟨-, pushes, others⟩ := ofByte_scanned b
  rw [op, Opcode.len] at pushes others
  by_cases push : 0x5f ≤ b ∧ b ≤ 0x7f
  · have len := pushes push
    have le : b.toNat ≤ 0x7f := push.2
    omega
  · have len := others push
    omega

section Steps

variable {tables : StackTables} {env : Env} {code : Bytecode} {host : Host} {m m' : Machine}

/-- What the scan makes of an opcode after which it goes on is what the opcode does. -/
theorem straightOp_step (step : (Setup.load tables.toInstructionTables env.rev env code).Step host m m') {n : Nat}
    (aligned : instrOffset code.bytes n = m.pc) {op : Op} {out : List AbstractValue}
    (straight : straightOp tables env.rev code.bytes m.pc = some (op, out)) : op.need ≤ m.stack.words.length ∧
      (∃ outWords, List.Forall₂ AbstractValue.Describes out outWords ∧ m'.stack.words = op.run outWords m.stack.words) ∧
      m'.pc = m.pc + (opAt code.bytes m.pc).len := by
  have goesOn : (opAt code.bytes m.pc).ends = false := step.goesOn
  have inside : m.pc < code.bytes.length := step.1
  have jump : opAt code.bytes m.pc ≠ .jump := by
    intro jump
    rw [straightOp, jump] at straight
    cases straight
  have jumpi : opAt code.bytes m.pc ≠ .jumpi := by
    intro jumpi
    rw [straightOp, jumpi] at straight
    cases straight
  obtain ⟨had, ⟨outWords, fresh, words⟩, pc⟩ := step.moved jump jumpi
  have had : (opAt code.bytes m.pc).stackOp.need ≤ m.stack.sp := had
  have fresh : outWords.length = (opAt code.bytes m.pc).stackOp.fresh := fresh
  have words : m'.stack.words = (opAt code.bytes m.pc).stackOp.run outWords m.stack.words := words
  rw [Stack.length_words, ← and_assoc]
  refine ⟨?_, pc⟩
  clear pc
  unfold straightOp at straight
  split at straight
  iterate 8 · cases straight
  · next dup =>
    cases straight
    rw [dup] at had words
    exact ⟨had, [], .nil, words⟩
  · next swap =>
    cases straight
    rw [swap] at had words
    exact ⟨had, [], .nil, words⟩
  · next k push =>
    cases straight
    have immediate : m'.stack.words =
        (Cache.buildJumpDestMapAndPushCache code.bytes).pushValue m.pc :: m.stack.words := step.push push
    rw [← aligned] at inside push immediate
    rw [Cache.decoded_pushValue inside push, aligned] at immediate
    refine ⟨Nat.zero_le _, _, .cons ?_ .nil, immediate⟩
    exact AbstractValue.constFromPush_describes _ _ (push_le push)
  · next push0 =>
    cases straight
    exact ⟨Nat.zero_le _, [0], .cons (fun _ _ => rfl) .nil, step.push0 push0⟩
  · next dup swap _ _ =>
    cases straight
    have known : opAt code.bytes m.pc ≠ .unknown := by
      intro unknown
      rw [unknown] at goesOn
      cases goesOn
    obtain ⟨required, change⟩ := tables.documented env.rev (byteAt code.bytes m.pc) step.defined known
    have same : metricsOp tables env.rev (byteAt code.bytes m.pc) = (opAt code.bytes m.pc).stackOp := by
      rw [stackOp_plain dup swap, metricsOp, required, change]
      show Op.plain (Int.toNat _) (Int.toNat (_ + (_ - _))) = _
      rw [add_sub_cancel, Int.toNat_natCast, Int.toNat_natCast]
      rfl
    rw [same]
    exact ⟨had, outWords, forall₂_unknown fresh, words⟩

end Steps

/-! ## Jumps -/

section Jumps

variable {code : Bytes} (body : BlockBody) {s : Scan} {target : Word}

theorem endJump_target (code : Bytes)
    (describes : (((s.ensureAbstractDepth 1).stack.head?).getD .unknown).Describes target) :
    (endJump code body s).body.hasDynamicJump = true ∨
      getCanonicalJumpDestPC code target.toNat ∈ (endJump code body s).body.successors := by
  simp only [endJump]
  generalize ((s.ensureAbstractDepth 1).stack.head?).getD .unknown = top at describes ⊢
  split
  · next constant =>
    simp only [Bool.and_eq_true] at constant
    rw [describes constant.1.1 constant.1.2]
    exact .inr (List.mem_append_right _ (List.mem_singleton_self _))
  · exact .inl rfl

theorem endJumpI_target (describes : (((s.ensureAbstractDepth 2).stack.head?).getD .unknown).Describes target)
    (dest : IsJumpDest code target.toNat) : (endJumpI code body s).body.hasDynamicJump = true ∨
      getCanonicalJumpDestPC code target.toNat ∈ (endJumpI code body s).body.successors := by
  simp only [endJumpI]
  generalize ((s.ensureAbstractDepth 2).stack.head?).getD .unknown = top at describes ⊢
  split
  · next constant =>
    simp only [Bool.and_eq_true] at constant
    rw [describes constant.1.1 constant.1.2]
    refine .inr ?_
    by_cases same : getCanonicalJumpDestPC code top.low = (fallthroughNext code s.scanPC).entryPC
    · rw [same]
      exact List.mem_append_left _ (List.mem_append_right _ (List.mem_singleton_self _))
    · rw [if_pos same]
      exact List.mem_append_right _ (List.mem_singleton_self _)
  · next variable' =>
    split
    · exact .inl rfl
    · next known =>
      -- The target is known, so it is a destination that the analyzer has seen.
      simp only [not_or, Bool.not_eq_false] at known
      have has := (hasCanonicalJumpDest_iff code top.low).mpr (describes known.1 known.2 ▸ dest)
      rw [known.1, known.2, has] at variable'
      exact absurd rfl variable'

theorem endJump_bodyEndPC : (endJump code body s).body.bodyEndPC = s.scanPC + 1 := by
  simp only [endJump]
  split <;> rfl

theorem endJumpI_bodyEndPC : (endJumpI code body s).body.bodyEndPC = s.scanPC + 1 := by
  simp only [endJumpI]
  split
  · rfl
  · split <;> rfl

theorem endJumpI_fallthrough : (fallthroughNext code s.scanPC).entryPC ∈ (endJumpI code body s).body.successors := by
  simp only [endJumpI]
  split
  · exact List.mem_append_left _ (List.mem_append_right _ (List.mem_singleton_self _))
  · split <;> exact List.mem_append_right _ (List.mem_singleton_self _)

end Jumps

/-! ## What is known of the blocks -/

/-- The blocks of the code with the depths that the analysis has found. -/
structure Analyzed (tables : StackTables) (rev : Revision) (code : Bytes) (infos : List BlockInfo) :
    Prop where
  bodies : infos.map BlockInfo.toBlockBody = buildBlocks tables rev code
  resolved : Resolved infos []
  entry : Held infos (entryBlockPC code) 0

namespace Analyzed

variable {tables : StackTables} {rev : Revision} {code : Bytes} {infos : List BlockInfo}
variable {b : BlockInfo}

variable (h : Analyzed tables rev code infos) (mem : b ∈ infos)

include h mem

theorem mem_body : b.toBlockBody ∈ buildBlocks tables rev code := by
  rw [← h.bodies]
  exact List.mem_map_of_mem mem

omit mem in
theorem of_body {body : BlockBody} (mem : body ∈ buildBlocks tables rev code) : ∃ b ∈ infos, b.toBlockBody = body := by
  rw [← h.bodies] at mem
  exact List.mem_map.mp mem

theorem starts : Starts code b.entryPC b.bodyStartPC :=
  (buildBlocks_laid tables rev code).1.starts _ (h.mem_body mem)

theorem scanned : b.toBlockBody = (b.scanned tables rev code).finish code :=
  (buildBlocks_laid tables rev code).1.scanned _ (h.mem_body mem)

omit mem in
theorem dest {p : Nat} (isDest : IsJumpDest code p) : ∃ b ∈ infos, b.entryPC = getCanonicalJumpDestPC code p ∧
      b.bodyStartPC = getCanonicalJumpDestPC code p + 1 := by
  obtain ⟨body, mem, entry⟩ := (buildBlocks_laid tables rev code).2.2 p isDest
  obtain ⟨b, hb, rfl⟩ := h.of_body mem
  have ends := canonical_endsRun isDest
  have named := ends.isJumpDest isDest ends.le (Nat.le_refl _)
  refine ⟨b, hb, entry, ?_⟩
  rw [← entry] at named ⊢
  exact ((h.starts hb).eq_of_isJumpDest named).1

theorem next {x : Next} (eq : (b.scanned tables rev code).next = some x) :
    ∃ b' ∈ infos, b'.entryPC = x.entryPC ∧ b'.bodyStartPC = x.bodyStartPC := by
  obtain ⟨body, hbody, same⟩ := (buildBlocks_laid tables rev code).1.next _ (h.mem_body mem) x eq
  obtain ⟨b', hb', rfl⟩ := h.of_body hbody
  exact ⟨b', hb', same⟩

theorem before {c : BlockInfo} (mem' : c ∈ infos)
    (ne : b.entryPC ≠ c.entryPC) : Before tables rev code b.toBlockBody c.toBlockBody ∨
      Before tables rev code c.toBlockBody b.toBlockBody := by
  have pairwise := (buildBlocks_laid tables rev code).1.before
  rw [← h.bodies, List.pairwise_map, List.pairwise_iff_getElem] at pairwise
  obtain ⟨i, hi, rfl⟩ := List.getElem_of_mem mem
  obtain ⟨j, hj, rfl⟩ := List.getElem_of_mem mem'
  rcases Nat.lt_trichotomy i j with lt | rfl | gt
  · exact .inl (pairwise i j hi hj lt)
  · exact absurd rfl ne
  · exact .inr (pairwise j i hj hi gt)

theorem handed {d : Nat} (held : Held infos b.entryPC d) {words : List Word}
    (holds : Matches d (b.scanned tables rev code).scan words) {succ : Nat}
    (isSucc : succ ∈ (b.scanned tables rev code).body.successors) : Held infos succ words.length := by
  have exit : (words.length : Int) = d + b.stackHeightDiff := by
    rw [congrArg BlockBody.stackHeightDiff (h.scanned mem)]
    exact holds.depth
  have isSucc : succ ∈ b.successors := by
    rw [congrArg BlockBody.successors (h.scanned mem)]
    exact isSucc
  rcases held b mem rfl with bad | resolved
  · intro c hc here
    exact .inl (h.resolved.closed.successors b mem bad c hc (here ▸ isSucc))
  · rw [exit, ← resolved]
    refine h.resolved.follows b mem ?_ List.not_mem_nil ?_ succ isSucc
    · rw [resolved]
      exact Int.natCast_nonneg d
    · rw [resolved, ← exit]
      exact Int.natCast_nonneg words.length

theorem lt_bodyEndPC {pc : Nat}
    (inside : pc < code.length) (end_ : (b.scanned tables rev code).body.bodyEndPC = pc + 1) : pc < b.bodyEndPC := by
  rw [congrArg BlockBody.bodyEndPC (h.scanned mem)]
  show pc < if code.length ≤ _ then code.length else (b.scanned tables rev code).body.bodyEndPC
  split
  · exact inside
  · rw [end_]
    exact Nat.lt_succ_self pc

end Analyzed

/-! ## Where a run is -/

section Runs

variable (tables : StackTables) (rev : Revision) (code : Bytes) (infos : List BlockInfo)

/-- A machine is at a point of a block's scan. It has entered the block with `d` values. -/
structure Point (b : BlockInfo) (d fuel : Nat) (s : Scan) (m : Machine) : Prop where
  mem : b ∈ infos
  held : Held infos b.entryPC d
  aligned : ∃ n, instrOffset code n = m.pc
  pc : s.scanPC = m.pc
  enough : code.length ≤ m.pc + fuel
  rest : scanBody tables rev code (.start b.entryPC b.bodyStartPC b.isJumpDest) fuel s =
    b.scanned tables rev code
  other : ¬ (m.pc < code.length ∧ opAt code m.pc = .jumpdest)
  holds : Matches d s m.stack.words
  first : s = ⟨b.bodyStartPC, [], 0, 0, 0, 0, 0⟩ ∨ b.bodyStartPC < m.pc

/-- A machine is at a `JUMPDEST` before a block, or inside one. -/
inductive Located (m : Machine) : Prop
  | approach (dest : IsJumpDest code m.pc)
    (held : Held infos (getCanonicalJumpDestPC code m.pc) m.stack.sp)
  | inside {b : BlockInfo} {d fuel : Nat} {s : Scan}
    (point : Point tables rev code infos b d fuel s m)

/-- A jump is taken to a target that the analyzer does not know. -/
def TakesUnknownJump (m : Machine) : Prop :=
  ∃ b ∈ infos, b.hasDynamicJump = true ∧ b.bodyStartPC ≤ m.pc ∧ m.pc < b.bodyEndPC ∧
    (opAt code m.pc = .jump ∨ opAt code m.pc = .jumpi ∧ m.stack.peek 1 ≠ 0)

variable {tables rev code infos}

namespace Point

variable {b : BlockInfo} {d fuel : Nat} {s : Scan} {m : Machine}

variable (p : Point tables rev code infos b d fuel s m)

include p

theorem le : b.bodyStartPC ≤ m.pc := by
  rcases p.first with rfl | later
  · exact Nat.le_of_eq p.pc
  · exact Nat.le_of_lt later

variable (inside : m.pc < code.length)

include inside

theorem not_jumpdest : opAt code m.pc ≠ .jumpdest := fun op => p.other ⟨inside, op⟩

variable (defined : tables.defined rev (byteAt code m.pc) = true)

include defined

theorem scans_straight {op : Op} {out : List AbstractValue}
    (straight : straightOp tables rev code m.pc = some (op, out)) : ∃ k, code.length ≤ m.pc + (k + 1) ∧
      scanBody tables rev code (.start b.entryPC b.bodyStartPC b.isJumpDest) k
        (s.apply op out (m.pc + (opAt code m.pc).len)) = b.scanned tables rev code := by
  have enough := p.enough
  obtain ⟨k, rfl⟩ : ∃ k, fuel = k + 1 := ⟨fuel - 1, by omega⟩
  refine ⟨k, enough, ?_⟩
  rw [← p.rest, scanBody, p.pc, if_pos inside, if_neg (p.not_jumpdest inside),
    if_neg (by rw [defined]; exact Bool.noConfusion), straight]

theorem scans_jump : (opAt code m.pc = .jump →
      b.scanned tables rev code = endJump code (.start b.entryPC b.bodyStartPC b.isJumpDest) s) ∧
    (opAt code m.pc = .jumpi →
      b.scanned tables rev code = endJumpI code (.start b.entryPC b.bodyStartPC b.isJumpDest) s) := by
  have enough := p.enough
  obtain ⟨k, rfl⟩ : ∃ k, fuel = k + 1 := ⟨fuel - 1, by omega⟩
  rw [← p.rest, scanBody, p.pc, if_pos inside, if_neg (p.not_jumpdest inside),
    if_neg (by rw [defined]; exact Bool.noConfusion)]
  constructor <;> intro op <;> rw [straightOp, op]

end Point

namespace Located

variable {m : Machine} {b : BlockInfo}

theorem enter (h : Analyzed tables rev code infos) (mem : b ∈ infos)
    (held : Held infos b.entryPC m.stack.sp) (pc : m.pc = b.bodyStartPC) : Located tables rev code infos m := by
  obtain ⟨n, aligned⟩ := (h.starts mem).aligned
  have other := (h.starts mem).not_jumpdest
  rw [← pc] at aligned other
  have holds : Matches m.stack.words.length ⟨b.bodyStartPC, [], 0, 0, 0, 0, 0⟩ m.stack.words :=
    ⟨[], _, rfl, .nil, rfl⟩
  rw [Stack.length_words] at holds
  exact .inside ⟨mem, held, ⟨n, aligned⟩, pc.symm, Nat.le_add_left _ _, rfl, other, holds, .inl rfl⟩

theorem entered (h : Analyzed tables rev code infos) (at_ : Located tables rev code infos m)
    (mem : b ∈ infos) (entry : m.pc = b.entryPC) : Held infos b.entryPC m.stack.sp := by
  have starts := h.starts mem
  cases at_ with
  | approach dest held =>
    rw [entry] at dest held
    rwa [(starts.eq_of_isJumpDest dest).2] at held
  | @inside c d fuel s point =>
    have le := point.le
    obtain ⟨mem', held, ⟨n, aligned⟩, pc, enough, rest, other, holds, first⟩ := point
    have before := (h.starts mem').le
    by_cases same : c.entryPC = b.entryPC
    · -- The block is the one that is scanned, so its scan is at the start.
      obtain rfl := h.resolved.distinct.eq mem' mem same
      rcases first with rfl | later
      · have depth := holds.depth
        rw [Stack.length_words] at depth
        have depth : (m.stack.sp : Int) = d + ((0 : Int) - 0) := depth
        have depth : m.stack.sp = d := by omega
        rw [depth]
        exact held
      · omega
    · rcases h.before mem' mem same with sooner | later
      · -- The next block is entered after all of this one.
        obtain ⟨x, eq, bound⟩ := sooner.next
        have next := scanBody_next tables rev (.start c.entryPC c.bodyStartPC c.isJumpDest) fuel s
          (aligned.trans pc.symm) (by rw [pc]; exact enough)
        rw [rest] at next
        have inside : m.pc < code.length := by
          have past := (next.from_ x eq).2
          have end_ := (next.starts x eq).start_le
          omega
        have lt := next.lt_entry (by rw [pc]; exact fun op => other ⟨inside, op⟩) eq
        omega
      · have lt := later.lt
        omega

end Located

end Runs

/-! ## Steps of a run -/

section Steps

variable {tables : StackTables} {infos : List BlockInfo} {env : Env} {code : Bytecode} {host : Host}
variable {m m' : Machine}

theorem isJumpDest_of_landsOn {target : Word} {pc : Nat}
    (lands : (Setup.load tables.toInstructionTables env.rev env code).LandsOn target pc) :
    IsJumpDest code.bytes target.toNat ∧ target.toNat = pc := by
  have dest : IsJumpDest code.bytes pc := (Cache.decoded_jumpDest code.bytes pc).mp lands.jumpDest
  have same : target.toNat = pc := by
    have fits := code.fits
    have inside : pc < code.bytes.length := lands.inside
    have eq := lands.target
    rw [uint256ToUint64] at eq
    split at eq
    · exact eq
    · omega
  exact ⟨same ▸ dest, same⟩

namespace Located

theorem step_approach (h : Analyzed tables env.rev code.bytes infos) (dest : IsJumpDest code.bytes m.pc)
    (held : Held infos (getCanonicalJumpDestPC code.bytes m.pc) m.stack.sp)
    (step : (Setup.load tables.toInstructionTables env.rev env code).Step host m m') :
    Located tables env.rev code.bytes infos m' := by
  have op : opAt (Setup.load tables.toInstructionTables env.rev env code).env.code m.pc = .jumpdest := dest.2.2
  obtain ⟨-, ⟨out, fresh, words⟩, pc⟩ := step.moved (by rw [op]; exact Opcode.noConfusion)
    (by rw [op]; exact Opcode.noConfusion)
  rw [op] at fresh words pc
  obtain rfl := List.length_eq_zero_iff.mp fresh
  have words : m'.stack.words = m.stack.words := words
  have depth : m'.stack.sp = m.stack.sp := by
    rw [← Stack.length_words, ← Stack.length_words, words]
  have pc : m'.pc = m.pc + 1 := pc
  have ends := canonical_endsRun dest
  rw [← depth] at held
  rcases Nat.eq_or_lt_of_le ends.le with last | more
  · obtain ⟨b, mem, entry, start⟩ := h.dest dest
    refine .enter h mem (entry ▸ held) ?_
    rw [start, pc, ← last]
  · have next : IsJumpDest code.bytes m'.pc := by
      rw [pc]
      exact ends.isJumpDest dest (Nat.le_succ _) more
    have same : getCanonicalJumpDestPC code.bytes m'.pc = getCanonicalJumpDestPC code.bytes m.pc := by
      rw [pc]
      exact canonical_of_endsRun ends dest (Nat.le_succ _) more
    exact .approach next (same ▸ held)

variable {b : BlockInfo} {d fuel : Nat} {s : Scan}

variable (h : Analyzed tables env.rev code.bytes infos)

include h

section

variable (p : Point tables env.rev code.bytes infos b d fuel s m)
  (step : (Setup.load tables.toInstructionTables env.rev env code).Step host m m')

include p step

/-- An opcode after which the scan goes on leads to the next one, or to the `JUMPDEST` of the next
block. -/
theorem step_straight {op : Op}
    {out : List AbstractValue} (straight : straightOp tables env.rev code.bytes m.pc = some (op, out)) :
    Located tables env.rev code.bytes infos m' := by
  have inside : m.pc < code.bytes.length := step.1
  obtain ⟨n, aligned⟩ := p.aligned
  obtain ⟨k, enough, rest⟩ := p.scans_straight inside step.defined straight
  obtain ⟨had, ⟨outWords, new, words⟩, pc⟩ := straightOp_step step aligned straight
  have holds := p.holds.apply op had new (m.pc + (opAt code.bytes m.pc).len)
  rw [← words] at holds
  rw [← pc] at rest holds
  have after : instrOffset code.bytes (n + 1) = m'.pc := by
    rw [instrOffset_succ (aligned ▸ inside), aligned, pc]
  have pos := Opcode.len_pos (opAt code.bytes m.pc)
  have le := p.le
  by_cases dest : m'.pc < code.bytes.length ∧ opAt code.bytes m'.pc = .jumpdest
  · obtain ⟨j, rfl⟩ : ∃ j, k = j + 1 := ⟨k - 1, by omega⟩
    rw [scanBody] at rest
    have rest : (if m'.pc < code.bytes.length then if opAt code.bytes m'.pc = .jumpdest then
      endJumpDest code.bytes (.start b.entryPC b.bodyStartPC b.isJumpDest) (s.apply op out m'.pc)
      else _ else _) = b.scanned tables env.rev code.bytes := rest
    rw [if_pos dest.1, if_pos dest.2] at rest
    refine .approach ⟨⟨n + 1, after⟩, dest⟩ ?_
    rw [← Stack.length_words]
    apply h.handed p.mem p.held
    · rw [← rest]
      exact holds
    · rw [← rest]
      exact List.mem_append_right _ (List.mem_singleton_self _)
  · exact .inside ⟨p.mem, p.held, ⟨n + 1, after⟩, rfl, by omega, rest, dest, holds, .inr (by omega)⟩

theorem step_jump (op : opAt code.bytes m.pc = .jump) (known : ¬ TakesUnknownJump code.bytes infos m) :
    Located tables env.rev code.bytes infos m' := by
  have inside : m.pc < code.bytes.length := step.1
  have scanned := (p.scans_jump inside step.defined).1 op
  obtain ⟨target, words, lands⟩ := step.jump op
  obtain ⟨dest, pc⟩ := isJumpDest_of_landsOn lands
  have deep : 1 ≤ m.stack.words.length := by
    rw [words]
    exact Nat.le_add_left 1 _
  have holds := p.holds.apply (.plain 1 0) deep .nil (s.scanPC + 1)
  rw [words] at holds
  have describes := p.holds.head deep (w := target) (by rw [words]; rfl)
  rcases endJump_target (.start b.entryPC b.bodyStartPC b.isJumpDest) code.bytes describes with
    dynamic | isSucc
  · refine absurd ⟨b, p.mem, ?_, p.le, h.lt_bodyEndPC p.mem inside ?_, .inl op⟩ known
    · rw [congrArg BlockBody.hasDynamicJump (h.scanned p.mem), scanned]
      exact dynamic
    · rw [scanned, endJump_bodyEndPC, p.pc]
  · rw [pc] at dest isSucc
    refine .approach dest ?_
    rw [← Stack.length_words]
    refine h.handed p.mem p.held ?_ (scanned ▸ isSucc)
    rw [scanned]
    exact holds

/-- A `JUMPI` falls through, or leads to the block of its target if that is known. -/
theorem step_jumpi (op : opAt code.bytes m.pc = .jumpi) (known : ¬ TakesUnknownJump code.bytes infos m) :
    Located tables env.rev code.bytes infos m' := by
  have inside : m.pc < code.bytes.length := step.1
  have scanned := (p.scans_jump inside step.defined).2 op
  obtain ⟨target, cond, words, gone⟩ := step.jumpi op
  have deep : 2 ≤ m.stack.words.length := by
    rw [words]
    exact Nat.le_add_left 2 _
  have holds := p.holds.apply (.plain 2 0) deep .nil (s.scanPC + 1)
  rw [words] at holds
  have handed {succ : Nat} (isSucc : succ ∈ (b.scanned tables env.rev code.bytes).body.successors) :
      Held infos succ m'.stack.sp := by
    rw [← Stack.length_words]
    refine h.handed p.mem p.held ?_ isSucc
    rw [scanned]
    exact holds
  rcases gone with ⟨-, pc⟩ | ⟨taken, lands⟩
  · -- The next block is entered, or one of its `JUMPDEST`s comes first.
    have held := handed (scanned ▸ endJumpI_fallthrough (.start b.entryPC b.bodyStartPC b.isJumpDest))
    rw [p.pc] at held
    by_cases dest : m.pc + 1 < code.bytes.length ∧ opAt code.bytes (m.pc + 1) = .jumpdest
    · rw [fallthroughNext, if_pos dest] at held
      rw [← pc] at dest held
      obtain ⟨n, aligned⟩ := p.aligned
      refine .approach ⟨⟨n + 1, ?_⟩, dest⟩ held
      rw [instrOffset_succ (aligned ▸ inside), aligned, op, pc]
      rfl
    · have next : (b.scanned tables env.rev code.bytes).next =
          some (fallthroughNext code.bytes m.pc) := by
        rw [scanned, ← p.pc]
        rfl
      obtain ⟨c, mem, entry, start⟩ := h.next p.mem next
      rw [fallthroughNext, if_neg dest] at held entry start
      exact .enter h mem (entry ▸ held) (pc.trans start.symm)
  · obtain ⟨dest, pc⟩ := isJumpDest_of_landsOn lands
    have describes := p.holds.head deep (w := target) (by rw [words]; rfl)
    rcases endJumpI_target (.start b.entryPC b.bodyStartPC b.isJumpDest) describes dest with
      dynamic | isSucc
    · have cond_eq : m.stack.peek 1 = cond := by
        have second := m.stack.getElem?_words (k := 1) (by rw [← Stack.length_words]; exact deep)
        rw [words] at second
        exact (Option.some.inj second).symm
      refine absurd ⟨b, p.mem, ?_, p.le, h.lt_bodyEndPC p.mem inside ?_, .inr ⟨op, cond_eq ▸ taken⟩⟩
        known
      · rw [congrArg BlockBody.hasDynamicJump (h.scanned p.mem), scanned]
        exact dynamic
      · rw [scanned, endJumpI_bodyEndPC, p.pc]
    · rw [pc] at dest isSucc
      exact .approach dest (handed (scanned ▸ isSucc))

end

/-- **One step** of a run. -/
theorem step (at_ : Located tables env.rev code.bytes infos m)
    (step : (Setup.load tables.toInstructionTables env.rev env code).Step host m m')
    (known : ¬ TakesUnknownJump code.bytes infos m) : Located tables env.rev code.bytes infos m' := by
  have goesOn : (opAt code.bytes m.pc).ends = false := step.goesOn
  cases at_ with
  | approach dest held => exact step_approach h dest held step
  | inside p =>
    cases straight : straightOp tables env.rev code.bytes m.pc with
    | some r => exact step_straight h p step straight
    | none =>
      -- What does not go on is a jump: a step is no opcode that ends the frame.
      unfold straightOp at straight
      split at straight
      · next op => exact absurd op (p.not_jumpdest step.1)
      · next op => exact step_jump h p step op known
      · next op => exact step_jumpi h p step op known
      all_goals first
        | next op => rw [op] at goesOn; cases goesOn
        | cases straight

theorem start (pc : m.pc = 0) (sp : m.stack.sp = 0) : Located tables env.rev code.bytes infos m := by
  have held := h.entry
  have held : Held infos (entryBlockPC code.bytes) m.stack.sp := by rwa [sp]
  by_cases dest : IsJumpDest code.bytes 0
  · rw [entryBlockPC, if_pos dest.2] at held
    rw [← pc] at dest held
    exact .approach dest held
  · have other : ¬ (0 < code.bytes.length ∧ opAt code.bytes 0 = .jumpdest) := fun h => dest ⟨⟨0, rfl⟩, h⟩
    obtain ⟨body, mem, entry⟩ := (buildBlocks_laid tables env.rev code.bytes).2.1
    obtain ⟨b, hb, rfl⟩ := h.of_body mem
    have starts := h.starts hb
    rw [← entry] at held
    rw [entryBlockPC, if_neg other] at entry
    refine .enter h hb held ?_
    rcases Nat.eq_or_lt_of_le starts.le with same | lt
    · rw [pc, ← same, entry]
    · exact absurd (entry ▸ starts.isJumpDest_of_lt lt) dest

end Located

end Steps

/-! ## Lifted blocks -/

theorem analyzed {tables : StackTables} {rev : Revision} {code : Bytes} {fuel : Nat} {a : Analysis}
    (eq : analyze tables rev code fuel = some a) : Analyzed tables rev code a.blockInfos := by
  obtain ⟨bodies, resolved, entry, -⟩ := analyze_resolved eq
  exact ⟨bodies, resolved, entry⟩

/-- A step that takes no jump to a target that the analyzer does not know. -/
def KnownStep (tables : StackTables) (env : Env) (code : Bytecode) (host : Host) (a : Analysis)
    (m m' : Machine) : Prop :=
  (Setup.load tables.toInstructionTables env.rev env code).Step host m m' ∧
    ¬ TakesUnknownJump code.bytes a.blockInfos m

/-- **A lifted block is entered with the depth it is lifted for**, along every run that takes no jump to
a target the analyzer does not know. -/
theorem run_lifted {tables : StackTables} {env : Env} {code : Bytecode} {fuel : Nat} {a : Analysis}
    (eq : analyze tables env.rev code.bytes fuel = some a) {host : Host} {m m' : Machine}
    (pc : m.pc = 0) (sp : m.stack.sp = 0) (run : Relation.ReflTransGen (KnownStep tables env code host a) m m') :
    ∀ b ∈ a.blockInfos, b.canLiftStack = true → m'.pc = b.entryPC →
      (m'.stack.sp : Int) = b.resolvedEntryStackDepth := by
  have located : Located tables env.rev code.bytes a.blockInfos m' := by
    induction run with
    | refl => exact .start (analyzed eq) pc sp
    | tail _ last ih => exact .step (analyzed eq) ih last.1 last.2
  intro b mem lifted entry
  have good := ((analyze_resolved eq).2.2.2 b mem lifted).2
  rcases located.entered (analyzed eq) mem entry b mem rfl with bad | depth
  · rw [good] at bad
    cases bad
  · exact depth.symm

/-- Tables with the documented effects on the stack and no costs. -/
def freeTables : StackTables where
  toInstructionTables := .free
  stackHeightRequired _ b := (Opcode.ofByte b).stackOp.need
  stackHeightChange _ b := (Opcode.ofByte b).stackOp.gives - (Opcode.ofByte b).stackOp.need
  push_defined rev b n op := by
    have other : b ≠ 0x5f := by
      rintro rfl
      cases op
    show (b != 0x5f || _) = true
    rw [bne_iff_ne.mpr other, Bool.true_or]
  documented _ _ _ _ := ⟨rfl, rfl⟩

def bareEnv : Env := ⟨.cancun, .bare 0 100000, [], fun _ => 0, 0⟩

/-- `JUMPDEST, PUSH1 0, JUMP`. -/
def knownLoop : Bytecode := ⟨[0x5b, 0x60, 0, 0x56], by decide⟩

/-- `JUMPDEST, CALLVALUE, CALLVALUE, JUMP`: each time around there is one more value on the stack. -/
def growingLoop : Bytecode := ⟨[0x5b, 0x34, 0x34, 0x56], by decide⟩

def after (code : Bytecode) : Nat → Machine
  | 0 => .entry 100000
  | n + 1 =>
    let m := after code n
    (((Setup.load freeTables.toInstructionTables bareEnv.rev bareEnv code).slowStep m.pc).run (Machine.handle .idle) m).2

theorem after_step {code : Bytecode} {n : Nat} (inside : (after code n).pc < code.bytes.length)
    (runs : (((Setup.load freeTables.toInstructionTables bareEnv.rev bareEnv code).slowStep (after code n).pc).run
      (Machine.handle .idle) (after code n)).1.isOk = true) :
    (Setup.load freeTables.toInstructionTables bareEnv.rev bareEnv code).Step .idle (after code n) (after code (n + 1)) := by
  refine ⟨inside, Prod.ext ?_ rfl⟩
  revert runs
  show Except.isOk (Prod.fst _) = true → Prod.fst _ = _
  generalize Prod.fst _ = r
  cases r with
  | error => exact Bool.noConfusion
  | ok => exact fun _ => rfl

def loopAnalysis (code : Bytecode) : Analysis :=
  (analyze freeTables bareEnv.rev code.bytes 10).getD ⟨[], []⟩

theorem run_lifted_loop : analyze freeTables bareEnv.rev knownLoop.bytes 10 = some (loopAnalysis knownLoop) ∧
    ∃ b ∈ (loopAnalysis knownLoop).blockInfos, b.canLiftStack = true ∧ (after knownLoop 3).pc = b.entryPC ∧
      ((after knownLoop 3).stack.sp : Int) = b.resolvedEntryStackDepth := by
  have analysis : analyze freeTables bareEnv.rev knownLoop.bytes 10 = some (loopAnalysis knownLoop) := by
    decide +kernel
  have known : ∀ m, ¬ TakesUnknownJump knownLoop.bytes (loopAnalysis knownLoop).blockInfos m := by
    have none : ∀ b ∈ (loopAnalysis knownLoop).blockInfos, b.hasDynamicJump = false := by decide +kernel
    rintro m ⟨b, mem, dynamic, -⟩
    rw [none b mem] at dynamic
    cases dynamic
  have run : Relation.ReflTransGen
      (KnownStep freeTables bareEnv knownLoop .idle (loopAnalysis knownLoop)) (.entry 100000)
      (after knownLoop 3) :=
    .tail (.tail (.tail .refl
      ⟨after_step (n := 0) (by decide +kernel) (by decide +kernel), known _⟩)
      ⟨after_step (n := 1) (by decide +kernel) (by decide +kernel), known _⟩)
      ⟨after_step (n := 2) (by decide +kernel) (by decide +kernel), known _⟩
  obtain ⟨b, mem, lifted, entry⟩ : ∃ b ∈ (loopAnalysis knownLoop).blockInfos,
      b.canLiftStack = true ∧ (after knownLoop 3).pc = b.entryPC := by decide +kernel
  exact ⟨analysis, b, mem, lifted, entry, run_lifted analysis rfl rfl run b mem lifted entry⟩

/-- A block is lifted with the depth 0 and entered with the depth 1. -/
theorem reentered_not_lifted : analyze freeTables bareEnv.rev growingLoop.bytes 10 = some (loopAnalysis growingLoop) ∧
      Relation.ReflTransGen ((Setup.load freeTables.toInstructionTables bareEnv.rev bareEnv growingLoop).Step .idle)
        (.entry 100000) (after growingLoop 4) ∧ ∃ b ∈ (loopAnalysis growingLoop).blockInfos, b.canLiftStack = true ∧
        (after growingLoop 4).pc = b.entryPC ∧ ((after growingLoop 4).stack.sp : Int) ≠ b.resolvedEntryStackDepth := by
  refine ⟨by decide +kernel, ?_, by decide +kernel⟩
  exact .tail (.tail (.tail (.tail .refl
    (after_step (n := 0) (by decide +kernel) (by decide +kernel)))
    (after_step (n := 1) (by decide +kernel) (by decide +kernel)))
    (after_step (n := 2) (by decide +kernel) (by decide +kernel)))
    (after_step (n := 3) (by decide +kernel) (by decide +kernel))

end Dtvm.Jit.Analyzer
