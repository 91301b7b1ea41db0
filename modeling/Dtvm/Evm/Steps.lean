import Dtvm.Evm.Interpreter
import Dtvm.Evm.StackShape
import Dtvm.Jit.JumpTable

/-!
# Runs, opcode by opcode

One step of a frame is one opcode, its base gas paid (`Setup.Step`): the interpreter's switch. What a
step does to the program counter and to the stack is read off its opcode (`Setup.Step.cases`), whatever
the gas, the host and the rest of the machine.

The decoder's tables are right about the instructions of the code: a destination is a `JUMPDEST` that is
an instruction, and the immediate of a `PUSH` is the bytes after it (`decoded_jumpDest`,
`decoded_pushValue`).
-/

namespace Dtvm

open Effect

/-! ## The decoder -/

namespace Cache

variable {code : Bytes}

/-- The tables know the instructions before a program counter. -/
structure Decoded (code : Bytes) (pc : Nat) (tables : List Bool × List Word) : Prop where
  jumpDests : tables.1.length = code.length
  pushValues : tables.2.length = code.length
  jumpDest : ∀ p, tables.1.getD p false = true ↔ IsJumpDest code p ∧ p < pc
  pushValue : ∀ n j, instrOffset code n < pc → instrOffset code n < code.length →
    opAt code (instrOffset code n) = .push j →
    tables.2.getD (instrOffset code n) 0 = loadPushValue code (instrOffset code n) j

namespace Decoded

variable {tables : List Bool × List Word} {n : Nat}

/-- Past an instruction, the instructions before are those before it and itself. -/
theorem before_succ (inside : instrOffset code n < code.length) {k : Nat}
    (before : instrOffset code k < instrOffset code (n + 1)) :
    instrOffset code k < instrOffset code n ∨ instrOffset code k = instrOffset code n := by
  rcases Nat.lt_or_ge (instrOffset code k) (instrOffset code n) with earlier | later
  · exact .inl earlier
  · rw [instrOffset_succ inside] at before
    exact .inr (eq_of_inside inside later before)

theorem jumpDest_succ (inside : instrOffset code n < code.length) (p : Nat) :
    IsJumpDest code p ∧ p < instrOffset code (n + 1) ↔ (IsJumpDest code p ∧ p < instrOffset code n) ∨
        (p = instrOffset code n ∧ opAt code (instrOffset code n) = .jumpdest) := by
  have grows := instrOffset_succ inside
  have pos := Opcode.len_pos (opAt code (instrOffset code n))
  constructor
  · rintro ⟨⟨⟨k, rfl⟩, within, dest⟩, before⟩
    rcases before_succ inside before with earlier | here
    · exact .inl ⟨⟨⟨k, rfl⟩, within, dest⟩, earlier⟩
    · exact .inr ⟨here, here ▸ dest⟩
  · rintro (⟨dest, before⟩ | ⟨rfl, dest⟩)
    · exact ⟨dest, by omega⟩
    · exact ⟨⟨⟨n, rfl⟩, inside, dest⟩, by omega⟩

variable (h : Decoded code (instrOffset code n) tables) (inside : instrOffset code n < code.length)

include h inside

theorem jumpdest (dest : opAt code (instrOffset code n) = .jumpdest) :
    Decoded code (instrOffset code (n + 1)) (tables.1.set (instrOffset code n) true, tables.2) := by
  refine ⟨by rw [List.length_set]; exact h.jumpDests, h.pushValues, fun p => ?_, ?_⟩
  · rw [jumpDest_succ inside, ← h.jumpDest, List.getD_eq_getElem?_getD, List.getElem?_set]
    by_cases here : instrOffset code n = p
    · rw [if_pos here, if_pos (by rw [h.jumpDests]; omega)]
      simp only [Option.getD_some, true_iff]
      exact .inr ⟨here.symm, dest⟩
    · rw [if_neg here, ← List.getD_eq_getElem?_getD]
      simp only [Ne.symm here, false_and, or_false]
  · intro k j before within push
    rcases before_succ inside before with earlier | here
    · exact h.pushValue k j earlier within push
    · rw [here, dest] at push
      cases push

theorem push {j : Nat} (push : opAt code (instrOffset code n) = .push j) : Decoded code (instrOffset code (n + 1))
      (tables.1, tables.2.set (instrOffset code n) (loadPushValue code (instrOffset code n) j)) := by
  refine ⟨h.jumpDests, by rw [List.length_set]; exact h.pushValues, fun p => ?_, ?_⟩
  · rw [jumpDest_succ inside, h.jumpDest, push]
    simp only [reduceCtorEq, and_false, or_false]
  · intro k i before within push'
    rw [List.getD_eq_getElem?_getD, List.getElem?_set]
    rcases before_succ inside before with earlier | here
    · rw [if_neg (by omega), ← List.getD_eq_getElem?_getD]
      exact h.pushValue k i earlier within push'
    · rw [if_pos here.symm, if_pos (by rw [h.pushValues]; exact inside), Option.getD_some]
      rw [here, push] at push'
      cases push'
      rw [here]

theorem other (dest : opAt code (instrOffset code n) ≠ .jumpdest)
    (push : ∀ j, opAt code (instrOffset code n) ≠ .push j) : Decoded code (instrOffset code (n + 1)) tables := by
  refine ⟨h.jumpDests, h.pushValues, fun p => ?_, ?_⟩
  · rw [jumpDest_succ inside, h.jumpDest]
    simp only [dest, and_false, or_false]
  · intro k j before within push'
    rcases before_succ inside before with earlier | here
    · exact h.pushValue k j earlier within push'
    · rw [here] at push'
      exact absurd push' (push j)

end Decoded

theorem decodeLoop_decoded (fuel n : Nat) (tables : List Bool × List Word)
    (h : Decoded code (instrOffset code n) tables) (enough : code.length ≤ instrOffset code n + fuel) :
    ∃ k, code.length ≤ instrOffset code k ∧
      Decoded code (instrOffset code k) (decodeLoop code fuel (instrOffset code n) tables) := by
  induction fuel generalizing n tables with
  | zero => exact ⟨n, enough, h⟩
  | succ fuel ih =>
    by_cases inside : instrOffset code n < code.length
    · have grows := instrOffset_succ inside
      have pos := Opcode.len_pos (opAt code (instrOffset code n))
      obtain ⟨jumpDests, pushValues⟩ := tables
      rw [decodeLoop, if_pos inside]
      split
      · next dest =>
        rw [dest, show Opcode.jumpdest.len = 1 from rfl] at grows
        have next := ih (n + 1) _ (h.jumpdest inside dest) (by omega)
        rwa [grows] at next
      · next j push =>
        rw [push, Opcode.len] at grows
        have next := ih (n + 1) _ (h.push inside push) (by omega)
        rwa [grows, ← Nat.add_assoc, Nat.add_right_comm] at next
      · next dest push =>
        have one : (opAt code (instrOffset code n)).len = 1 := by
          cases op : opAt code (instrOffset code n) with
          | push j => exact absurd op (push j)
          | _ => rfl
        rw [one] at grows
        have next := ih (n + 1) _ (h.other inside dest push) (by omega)
        rwa [grows] at next
    · obtain ⟨jumpDests, pushValues⟩ := tables
      rw [decodeLoop, if_neg inside]
      exact ⟨n, Nat.not_lt.mp inside, h⟩

theorem decoded_all (code : Bytes) : ∃ k, code.length ≤ instrOffset code k ∧
    Decoded code (instrOffset code k) (decodeLoop code code.length 0
      (List.replicate code.length false, List.replicate code.length 0)) := by
  have start : Decoded code (instrOffset code 0)
      (List.replicate code.length false, List.replicate code.length 0) := by
    refine ⟨List.length_replicate, List.length_replicate, fun p => ?_, fun n j before => ?_⟩
    · rw [List.getD_eq_getElem?_getD, List.getElem?_replicate]
      have never : ¬ (IsJumpDest code p ∧ p < instrOffset code 0) := fun h => Nat.not_lt_zero _ h.2
      simp only [never, iff_false]
      split <;> decide
    · exact absurd before (Nat.not_lt_zero _)
  exact decodeLoop_decoded code.length 0 _ start (Nat.le_add_left _ _)

theorem decoded_jumpDest (code : Bytes) (pc : Nat) :
    (buildJumpDestMapAndPushCache code).jumpDest pc = true ↔ IsJumpDest code pc := by
  obtain ⟨k, past, h⟩ := decoded_all code
  refine (h.jumpDest pc).trans ⟨And.left, fun dest => ⟨dest, ?_⟩⟩
  exact Nat.lt_of_lt_of_le dest.2.1 past

theorem decoded_pushValue {code : Bytes} {n j : Nat} (inside : instrOffset code n < code.length)
    (push : opAt code (instrOffset code n) = .push j) :
    (buildJumpDestMapAndPushCache code).pushValue (instrOffset code n) = loadPushValue code (instrOffset code n) j := by
  obtain ⟨k, past, h⟩ := decoded_all code
  exact h.pushValue n j (Nat.lt_of_lt_of_le inside past) inside push

end Cache

/-! ## Opcodes that end a frame -/

def Code.Ends {α : Type} (p : Code α) : Prop :=
  ∀ host m a m', p.run (Machine.handle host) m ≠ (.ok a, m')

theorem Code.Ends.fail {α : Type} (s : Status) : Code.Ends (Code.fail s : Code α) := by
  intro host m a m' eq
  cases congrArg Prod.fst eq

theorem Code.Ends.finish {α : Type} (s : Status) : Code.Ends (Code.finish s : Code α) := by
  intro host m a m' eq
  cases congrArg Prod.fst eq

theorem Code.Ends.bind {α β : Type} (p : Code α) {f : α → Code β} (h : ∀ a, Code.Ends (f a)) : Code.Ends (p >>= f) := by
  intro host m b m' eq
  rw [Program.run_bind] at eq
  split at eq
  · exact h _ host _ b m' eq
  · cases congrArg Prod.fst eq

theorem Code.Ends.next {p : Code Unit} (h : Code.Ends p) : Code.Ends (Handler.next p) :=
  fun host m _ m' eq => h host m () m' (Opcode.next_ok eq).2

namespace Opcode

def ends : Opcode → Bool
  | .stop | .return' | .invalid | .revert | .selfdestruct | .unknown => true
  | _ => false

theorem exec_ends {o : Opcode} (h : o.ends = true) (env : Env) (maps : DecodeMaps) : Code.Ends (o.exec env maps) := by
  cases o with
  | stop => exact (Code.Ends.bind _ fun _ => .finish _).next
  | return' => exact (Code.Ends.bind _ fun _ => .bind _ fun _ => .finish _).next
  | invalid => exact (Code.Ends.fail _).next
  | revert => exact (Code.Ends.bind _ fun _ => .bind _ fun _ => .bind _ fun _ => .finish _).next
  | selfdestruct =>
    apply Code.Ends.next
    rw [Handler.selfDestruct]
    split
    · exact .fail _
    · exact .bind _ fun _ => .bind _ fun _ => .bind _ fun _ => .bind _ fun _ => .bind _ fun _ =>
        .bind _ fun _ => .bind _ fun _ => .finish _
  | unknown => exact .fail _
  | _ => cases h

end Opcode

/-! ## Steps -/

namespace Setup

open Program

/-- One opcode of a frame that is inside its code and goes on. -/
def Step (s : Setup) (host : Host) (m m' : Machine) : Prop :=
  m.pc < s.env.code.length ∧ (s.slowStep m.pc).run (Machine.handle host) m = (.ok (), m')

variable {s : Setup} {host : Host} {m m' : Machine}

theorem slowOp_ok {b : UInt8} {flow : Flow} (eq : (s.slowOp b).run (Machine.handle host) m = (.ok flow, m')) :
    s.defined b = true ∧ ∃ g, ((Opcode.ofByte b).exec s.env s.cache.maps).run (Machine.handle host)
      (m.withGas g) = (.ok flow, m') := by
  unfold slowOp at eq
  split at eq
  · cases congrArg Prod.fst eq
  · next has =>
    refine ⟨by simpa using has, ?_⟩
    split at eq
    · next op => exact ⟨m.gas, op ▸ eq⟩
    · next op => exact ⟨m.gas, op ▸ eq⟩
    · next op => exact ⟨m.gas, op ▸ eq⟩
    · rw [run_bind, Code.run_charge] at eq
      split at eq
      · next paid =>
        split at paid
        · cases congrArg Prod.fst paid
        · obtain rfl := congrArg Prod.snd paid
          exact ⟨_, eq⟩
      · cases congrArg Prod.fst eq

/-- A jump to `target` has gone to a destination. -/
structure LandsOn (s : Setup) (target : Word) (pc : Nat) : Prop where
  target : uint256ToUint64 target = pc
  inside : pc < s.env.code.length
  jumpDest : s.cache.maps.jumpDest pc = true

def HasRoom (m : Machine) : Prop := m.stack.sp ≤ maxStack

theorem HasRoom.handle (room : HasRoom m) (host : Host) {o : FrameOp} : HasRoom (Machine.handle host o m).2 := by
  cases o with
  | pop n =>
    simp only [Machine.handle]
    split
    · exact room
    · exact Nat.le_trans (Nat.sub_le _ _) room
  | push v =>
    simp only [Machine.handle]
    split
    · exact room
    · next fits => exact Nat.le_of_not_lt fits
  | dup k =>
    simp only [Machine.handle]
    split
    · exact room
    · next fits => exact Nat.le_of_not_lt fun full => fits (.inr full)
  | need | room | swap | charge =>
    simp only [Machine.handle]
    split <;> exact room
  | _ => exact room

namespace Step

variable (h : s.Step host m m')

include h

/-- The opcode of a step, run with the gas that its base cost leaves, and where control goes after it. -/
theorem exec : s.defined (byteAt s.env.code m.pc) = true ∧ ∃ g flow m₁,
    ((opAt s.env.code m.pc).exec s.env s.cache.maps).run (Machine.handle host) (m.withGas g) =
      (.ok flow, m₁) ∧ (s.advance m.pc flow).run (Machine.handle host) m₁ = (.ok (), m') := by
  have ran := h.2
  rw [slowStep, run_bind] at ran
  cases first : (s.slowOp (byteAt s.env.code m.pc)).run (Machine.handle host) m with
  | mk r m₁ =>
    rw [first] at ran
    cases r with
    | error e => cases congrArg Prod.fst ran
    | ok flow =>
      obtain ⟨has, g, eq⟩ := slowOp_ok first
      exact ⟨has, g, flow, m₁, eq, ran⟩

theorem defined : s.defined (byteAt s.env.code m.pc) = true := h.exec.1

theorem goesOn : (opAt s.env.code m.pc).ends = false := by
  obtain ⟨-, g, flow, m₁, eq, -⟩ := h.exec
  apply Bool.eq_false_of_not_eq_true
  intro ends
  exact Opcode.exec_ends ends _ _ host _ flow m₁ eq

theorem moved (jump : opAt s.env.code m.pc ≠ .jump) (jumpi : opAt s.env.code m.pc ≠ .jumpi) :
    (opAt s.env.code m.pc).stackOp.need ≤ m.stack.sp ∧ (∃ out, out.length = (opAt s.env.code m.pc).stackOp.fresh ∧
        m'.stack.words = (opAt s.env.code m.pc).stackOp.run out m.stack.words) ∧
      m'.pc = m.pc + (opAt s.env.code m.pc).len := by
  obtain ⟨-, g, flow, m₁, eq, ran⟩ := h.exec
  obtain rfl := Opcode.exec_flow jump jumpi eq
  obtain ⟨had, words, -⟩ := Opcode.exec_moved jump jumpi eq
  obtain rfl := congrArg Prod.snd ran
  exact ⟨had, words, rfl⟩

theorem push {n : Nat} (op : opAt s.env.code m.pc = .push n) :
    m'.stack.words = s.cache.maps.pushValue m.pc :: m.stack.words := by
  obtain ⟨-, g, flow, m₁, eq, ran⟩ := h.exec
  rw [op] at eq
  obtain rfl := (Opcode.next_ok eq).1
  have words := Opcode.push_words n eq
  obtain rfl := congrArg Prod.snd ran
  exact words

theorem push0 (op : opAt s.env.code m.pc = .push0) : m'.stack.words = 0 :: m.stack.words := by
  obtain ⟨-, g, flow, m₁, eq, ran⟩ := h.exec
  rw [op] at eq
  obtain rfl := (Opcode.next_ok eq).1
  have words := Opcode.push0_words eq
  obtain rfl := congrArg Prod.snd ran
  exact words

omit h in
theorem operands_ok {n : Nat} {m : Machine} {f : (Fin n → Word) → Code Flow} {flow : Flow}
    (eq : (Code.operands n >>= f).run (Machine.handle host) m = (.ok flow, m')) : n ≤ m.stack.sp ∧
      (f fun k => m.stack.peek k).run (Machine.handle host) { m with stack := m.stack.drop n } = (.ok flow, m') := by
  rw [run_bind, Code.run_operands] at eq
  by_cases short : m.stack.sp < n
  · rw [if_pos short] at eq
    cases congrArg Prod.fst eq
  · rw [if_neg short] at eq
    exact ⟨Nat.not_lt.mp short, eq⟩

omit h in
theorem landed {g : Nat} {m₁ m₂ : Machine} {flow : Flow} {target : Word}
    (eq : (Handler.jumpTo s.env s.cache.maps target).run (Machine.handle host) m₁ = (.ok flow, m₂))
    (ran : (s.advance g flow).run (Machine.handle host) m₂ = (.ok (), m')) :
    s.LandsOn target m'.pc ∧ m'.stack = m₁.stack := by
  obtain ⟨rfl, inside, dest, rfl⟩ := Opcode.jumpTo_ok eq
  obtain rfl := congrArg Prod.snd ran
  exact ⟨⟨rfl, inside, dest⟩, rfl⟩

theorem jump (op : opAt s.env.code m.pc = .jump) :
    ∃ target, m.stack.words = target :: m'.stack.words ∧ s.LandsOn target m'.pc := by
  obtain ⟨-, g, flow, m₁, eq, ran⟩ := h.exec
  rw [op, Opcode.exec, Handler.jump] at eq
  obtain ⟨deep, eq⟩ := operands_ok eq
  obtain ⟨lands, stack⟩ := landed eq ran
  rw [stack]
  exact ⟨m.stack.peek 0, m.stack.words_eq_cons deep, lands⟩

theorem jumpi (op : opAt s.env.code m.pc = .jumpi) : ∃ target cond, m.stack.words = target :: cond :: m'.stack.words ∧
      (cond = 0 ∧ m'.pc = m.pc + 1 ∨ cond ≠ 0 ∧ s.LandsOn target m'.pc) := by
  obtain ⟨-, g, flow, m₁, eq, ran⟩ := h.exec
  rw [op, Opcode.exec, Handler.jumpi] at eq
  obtain ⟨deep, eq⟩ := operands_ok eq
  have words : m.stack.words = m.stack.peek 0 :: m.stack.peek 1 :: (m.stack.drop 2).words := by
    rw [m.stack.words_eq_cons (Nat.zero_lt_of_lt deep), (m.stack.drop 1).words_eq_cons (Nat.sub_pos_of_lt deep)]
    rfl
  refine ⟨m.stack.peek 0, m.stack.peek 1, ?_⟩
  split at eq
  · next zero =>
    have eq : (Except.ok Flow.next, { m.withGas g with stack := m.stack.drop 2 }) =
        (Except.ok flow, m₁) := eq
    obtain rfl := Except.ok.inj (congrArg Prod.fst eq)
    obtain rfl := congrArg Prod.snd eq
    obtain rfl := congrArg Prod.snd ran
    have one : (opAt s.env.code m.pc).len = 1 := by rw [op]; rfl
    refine ⟨words, .inl ⟨zero, ?_⟩⟩
    show m.pc + _ = _
    rw [one]
  · next nonzero =>
    obtain ⟨lands, stack⟩ := landed eq ran
    rw [stack]
    exact ⟨words, .inr ⟨nonzero, lands⟩⟩

theorem words : ∃ out, out.length = (opAt s.env.code m.pc).stackOp.fresh ∧
      m'.stack.words = (opAt s.env.code m.pc).stackOp.run out m.stack.words := by
  by_cases jump : opAt s.env.code m.pc = .jump
  · obtain ⟨target, words, -⟩ := h.jump jump
    rw [jump, words]
    exact ⟨[], rfl, rfl⟩
  by_cases jumpi : opAt s.env.code m.pc = .jumpi
  · obtain ⟨target, cond, words, -⟩ := h.jumpi jumpi
    rw [jumpi, words]
    exact ⟨[], rfl, rfl⟩
  exact (h.moved jump jumpi).2.1

theorem hasRoom (room : HasRoom m) : HasRoom m' := by
  have kept := run_preserves (fun _ _ (_ : True) room => room.handle host) (Within.all (s.slowStep m.pc)) room
  rw [h.2] at kept
  exact kept

end Step

end Setup

end Dtvm
