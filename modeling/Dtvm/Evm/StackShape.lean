import Dtvm.Evm.Opcode
import Dtvm.Stack.Ops

/-!
# What each opcode does to the operand stack

`Opcode.stackOp` is an opcode's effect on the stack as the EVM has it. Every handler has that effect whenever it
goes on to the next opcode, whatever gas there is and whatever the host answers (`Opcode.exec_stack`).

The handlers are run from a point where some words have been taken and others given (`Since`). `Leads` says what a
program makes of that point, and is collected by instance search along the program's text.
-/

namespace Dtvm

open Effect

/-! ## The stack as a list -/

namespace Stack

variable (s : Stack)

def words : List Word := (List.range s.sp).map s.peek

@[simp] theorem length_words : s.words.length = s.sp := by
  rw [words, List.length_map, List.length_range]

theorem getElem?_words {k : Nat} (h : k < s.sp) : s.words[k]? = some (s.peek k) := by
  rw [words, List.getElem?_map, List.getElem?_range h, Option.map_some]

theorem words_drop (n : Nat) : (s.drop n).words = s.words.drop n := by
  apply List.ext_getElem?
  intro k
  rw [List.getElem?_drop]
  by_cases inside : n + k < s.sp
  · have below : k < (s.drop n).sp := show k < s.sp - n by omega
    rw [getElem?_words _ below, getElem?_words _ inside]
    show some (s.slots (s.sp - n - 1 - k)) = some (s.slots (s.sp - 1 - (n + k)))
    rw [show s.sp - n - 1 - k = s.sp - 1 - (n + k) by omega]
  · rw [List.getElem?_eq_none, List.getElem?_eq_none]
    · rw [length_words]
      omega
    · rw [length_words]
      show s.sp - n ≤ k
      omega

theorem words_eq_cons (some : 0 < s.sp) : s.words = s.peek 0 :: (s.drop 1).words := by
  have top := s.getElem?_words some
  rw [words_drop]
  cases words : s.words with
  | nil => rw [words] at top; cases top
  | cons w rest => rw [words] at top; cases top; rfl

theorem words_push (v : Word) : (s.push v).words = v :: s.words := by
  apply List.ext_getElem?
  intro k
  cases k with
  | zero =>
    rw [getElem?_words _ (Nat.succ_pos s.sp)]
    show some (if s.sp + 1 - 1 - 0 = s.sp then v else _) = some v
    rw [if_pos (by omega)]
  | succ k =>
    rw [List.getElem?_cons_succ]
    by_cases inside : k < s.sp
    · rw [getElem?_words _ inside, getElem?_words _ (show k + 1 < s.sp + 1 by omega)]
      show some (if s.sp + 1 - 1 - (k + 1) = s.sp then v else s.slots (s.sp + 1 - 1 - (k + 1))) = _
      rw [if_neg (by omega), peek, show s.sp + 1 - 1 - (k + 1) = s.sp - 1 - k by omega]
    · rw [List.getElem?_eq_none, List.getElem?_eq_none]
      · rw [length_words]
        omega
      · rw [length_words]
        show s.sp + 1 ≤ k + 1
        omega

theorem words_poke {k : Nat} (h : k < s.sp) (v : Word) : (s.poke k v).words = s.words.set k v := by
  apply List.ext_getElem?
  intro i
  rw [List.getElem?_set]
  by_cases inside : i < s.sp
  · rw [getElem?_words (s.poke k v) inside, getElem?_words s inside]
    show some (if s.sp - 1 - i = s.sp - 1 - k then v else s.peek i) = _
    by_cases here : k = i
    · rw [if_pos (by omega), if_pos here, length_words, if_pos (by omega)]
    · rw [if_neg (by omega), if_neg here]
  · have outside : (s.poke k v).words[i]? = none := by
      rw [List.getElem?_eq_none]
      rw [length_words]
      exact Nat.not_lt.mp inside
    rw [outside, if_neg (by omega), List.getElem?_eq_none]
    rw [length_words]
    exact Nat.not_lt.mp inside

end Stack

/-! ## Taking and giving -/

/-- Since `before`, the top `taken` words have been taken and `given` others put in their place. -/
structure Since (taken given : Nat) (before now : Machine) : Prop where
  had : taken ≤ before.stack.sp
  words : ∃ out, out.length = given ∧ now.stack.words = out ++ before.stack.words.drop taken
  pc : now.pc = before.pc

namespace Since

variable {taken given : Nat} {before now : Machine}

theorem refl (m : Machine) : Since 0 0 m m := ⟨Nat.zero_le _, ⟨[], rfl, rfl⟩, rfl⟩

variable (h : Since taken given before now)

include h

theorem sp : now.stack.sp = given + (before.stack.sp - taken) := by
  obtain ⟨out, length, words⟩ := h.words
  rw [← Stack.length_words, words, List.length_append, List.length_drop, Stack.length_words, length]

theorem keep {next : Machine} (stack : next.stack = now.stack)
    (pc : next.pc = now.pc) : Since taken given before next :=
  ⟨h.had, stack ▸ h.words, pc.trans h.pc⟩

theorem pop {n : Nat} (enough : n ≤ now.stack.sp) :
    Since (taken + (n - given)) (given - n) before { now with stack := now.stack.drop n } := by
  have sp := h.sp
  have had := h.had
  obtain ⟨out, length, words⟩ := h.words
  refine ⟨by omega, ⟨out.drop n, by rw [List.length_drop, length], ?_⟩, h.pc⟩
  show (now.stack.drop n).words = _
  rw [Stack.words_drop, words, List.drop_append, List.drop_drop, length]

theorem push (v : Word) : Since taken (given + 1) before { now with stack := now.stack.push v } := by
  obtain ⟨out, length, words⟩ := h.words
  refine ⟨h.had, ⟨v :: out, by rw [List.length_cons, length], ?_⟩, h.pc⟩
  show (now.stack.push v).words = _
  rw [Stack.words_push, words]
  rfl

end Since

/-- The operations that leave the stack and the program counter alone. -/
@[reducible] def KeepsStack : FrameOp → Prop
  | .pop _ | .push _ | .dup _ | .swap _ | .setPc _ => False
  | _ => True

theorem KeepsStack.handle {o : FrameOp} (keeps : KeepsStack o) (host : Host) (m : Machine) :
    (Machine.handle host o m).2.stack = m.stack ∧ (Machine.handle host o m).2.pc = m.pc := by
  cases o with
  | pop | push | dup | swap | setPc => exact keeps.elim
  | need | room | charge =>
    simp only [Machine.handle]
    split <;> exact ⟨rfl, rfl⟩
  | _ => exact ⟨rfl, rfl⟩

/-- What a program makes of the words taken and given so far, if it comes to its end. -/
class Leads (taken given taken' given' : Nat) {α : Type} (p : Code α) : Prop where
  since : ∀ {host : Host} {before m m' : Machine} {a : α}, Since taken given before m →
    p.run (Machine.handle host) m = (.ok a, m') → Since taken' given' before m'

namespace Leads

open Program Code

variable {taken given taken' given' : Nat} {α β : Type}

theorem of_within {p : Code α} (h : Within KeepsStack p) : Leads taken given taken given p where
  since {host before m m' a} since eq := by
    have step : ∀ o t, KeepsStack o → t.stack = m.stack ∧ t.pc = m.pc →
        (Machine.handle host o t).2.stack = m.stack ∧ (Machine.handle host o t).2.pc = m.pc := by
      intro o t keeps same
      obtain ⟨stack, pc⟩ := keeps.handle host t
      exact ⟨stack.trans same.1, pc.trans same.2⟩
    have kept := run_preserves step h ⟨rfl, rfl⟩
    rw [eq] at kept
    exact since.keep kept.1 kept.2

theorem bind {mid mid' : Nat} {p : Code α} {f : α → Code β} (hp : Leads taken given mid mid' p)
    (hf : ∀ a, Leads mid mid' taken' given' (f a)) : Leads taken given taken' given' (p >>= f) where
  since {host before m m' b} since eq := by
    rw [run_bind] at eq
    cases first : p.run (Machine.handle host) m with
    | mk r m₁ =>
      rw [first] at eq
      cases r with
      | error e => cases congrArg Prod.fst eq
      | ok a => exact (hf a).since (hp.since since first) eq

theorem pop (n : Nat) : Leads taken given (taken + (n - given)) (given - n) (Code.pop n) where
  since {host before m m' a} since eq := by
    rw [run_pop] at eq
    split at eq
    · cases congrArg Prod.fst eq
    · next enough =>
      obtain rfl := congrArg Prod.snd eq
      exact since.pop (Nat.not_lt.mp enough)

theorem operands (n : Nat) : Leads taken given (taken + (n - given)) (given - n) (Code.operands n) :=
  (of_within inferInstance).bind fun _ => pop n

instance push (v : Word) : Leads taken given taken (given + 1) (Code.push v) where
  since {host before m m' a} since eq := by
    rw [run_push] at eq
    split at eq
    · cases congrArg Prod.fst eq
    · obtain rfl := congrArg Prod.snd eq
      exact since.push v

instance (n : Nat) (f : (Fin n → Word) → Code β)
    [hf : ∀ x, Leads (taken + (n - given)) (given - n) taken' given' (f x)] :
    Leads taken given taken' given' (Code.pop n >>= f) := (pop n).bind hf

instance (n : Nat) (f : (Fin n → Word) → Code β)
    [hf : ∀ x, Leads (taken + (n - given)) (given - n) taken' given' (f x)] :
    Leads taken given taken' given' (Code.operands n >>= f) := (operands n).bind hf

instance (p : Code α) (f : α → Code β) [hp : Within KeepsStack p]
    [hf : ∀ a, Leads taken given taken' given' (f a)] : Leads taken given taken' given' (p >>= f) :=
  (of_within hp).bind hf

instance (p : Code α) [hp : Within KeepsStack p] : Leads taken given taken given p := of_within hp

instance (c : Prop) [Decidable c] (p q : Code α) [hp : Leads taken given taken' given' p]
    [hq : Leads taken given taken' given' q] :
    Leads taken given taken' given' (if c then p else q) := by
  split
  · exact hp
  · exact hq

instance (c : Prop) [Decidable c] (p : Code Unit) [hp : Leads taken given taken given p] :
    Leads taken given taken given (Code.when c p) := by
  unfold Code.when
  infer_instance

instance (c : Prop) [Decidable c] (p : Code Unit) (f : Unit → Code β)
    [hp : Leads taken given taken given p] [hf : ∀ a, Leads taken given taken' given' (f a)] :
    Leads taken given taken' given' (Code.when c p >>= f) :=
  Leads.bind inferInstance hf

instance pushChecked (v : Word) : Leads taken given taken (given + 1) (Code.pushChecked v) :=
  (of_within inferInstance).bind fun _ => push v

instance (st : Status) : Leads taken given taken' given' (fail st : Code α) where
  since _ eq := by cases congrArg Prod.fst eq

instance (st : Status) : Leads taken given taken' given' (finish st : Code α) where
  since _ eq := by cases congrArg Prod.fst eq

end Leads

/-! ## The handlers -/

namespace Handler

open Program Code

variable {env : Env}

instance sstore_leads : Leads 0 0 2 0 (sstore env) := by unfold sstore; infer_instance
instance tstore_leads : Leads 0 0 2 0 (tstore env) := by unfold tstore; infer_instance
theorem returnedData_leads : Leads 0 0 2 0 returnedData := by unfold returnedData; infer_instance

instance return_leads : Leads 0 0 2 0 Handler.return' :=
  returnedData_leads.bind fun _ => inferInstance

instance revert_leads : Leads 0 0 2 0 (Handler.revert env) :=
  returnedData_leads.bind fun _ => inferInstance

instance selfDestruct_leads : Leads 0 0 1 0 (selfDestruct env) := by
  unfold selfDestruct; infer_instance

instance log_leads (n : Nat) : Leads 0 0 (n + 2) 0 (log env n) := by
  have topics : Leads 2 0 (n + 2) 0 (Code.pop n) := by
    have popped : Leads 2 0 (2 + (n - 0)) (0 - n) (Code.pop n) := Leads.pop n
    rwa [Nat.sub_zero, Nat.zero_sub, Nat.add_comm] at popped
  unfold log
  have rest := fun x : Fin 2 → Word => topics.bind fun t =>
    (inferInstance : Leads (n + 2) 0 (n + 2) 0 (do
      let data ← memoryRead (regionOffset (x 0) (x 1).low64) (x 1).low64
      Code.host (.emitLog env.msg.recipient data (List.ofFn t))))
  have charged := fun x : Fin 2 → Word =>
    (inferInstance : Leads 2 0 2 0 (checkMemoryExpandAndChargeGas (x 0) (x 1))).bind fun _ =>
      (inferInstance : Leads 2 0 2 0 (Code.charge (8 * (x 1).low64))).bind fun _ => rest x
  infer_instance

theorem createWith_leads (t : Nat) (op : CreateOp) (value o n salt : Word) :
    Leads t 0 t 1 (createWith env op value o n salt) := by
  -- the pushed zero is replaced when the creation succeeds
  have send : ∀ input, Leads t 1 t 1 (sendCreate env op value salt input) := fun _ => by
    unfold sendCreate; infer_instance
  unfold createWith
  refine Leads.bind (.of_within inferInstance) fun _ => (Leads.push 0).bind fun _ => ?_
  show Leads t 1 t 1 _
  infer_instance

instance create_leads : Leads 0 0 3 1 (create env .create) := by
  have rest : ∀ v o n s, Leads 3 0 3 1 (createWith env .create v o n s) := createWith_leads 3 .create
  exact (Leads.operands 3).bind fun x => rest _ _ _ _

instance create2_leads : Leads 0 0 4 1 (create env .create2) := by
  have rest : ∀ v o n s, Leads 4 0 4 1 (createWith env .create2 v o n s) :=
    createWith_leads 4 .create2
  exact (Leads.operands 4).bind fun x => rest _ _ _ _

theorem callWith_leads (t : Nat) (op : CallOp) (requested : Word) (dest : Address)
    (value i n o k : Word) : Leads t 0 t 1 (callWith env op requested dest value i n o k) := by
  have send : ∀ m o n, Leads t 1 t 1 (sendCall m o n) := fun _ _ _ => by
    unfold sendCall; infer_instance
  unfold callWith
  refine Leads.bind (.of_within inferInstance) fun _ => (Leads.push 0).bind fun _ => ?_
  show Leads t 1 t 1 _
  refine Leads.bind (.of_within inferInstance) fun _ => .bind (.of_within inferInstance) fun _ =>
    .bind (.of_within inferInstance) fun codeAddress => ?_
  split
  · infer_instance
  · refine Leads.bind (.of_within inferInstance) fun _ => .bind (.of_within inferInstance) fun _ =>
      .bind (.of_within inferInstance) fun _ => .bind (.of_within inferInstance) fun _ =>
      .bind (.of_within inferInstance) fun sent => ?_
    cases sent with
    | none => exact .of_within (.pure ())
    | some callGas => infer_instance

theorem call_leads {op : CallOp} (h : op.hasValueArgs = true) : Leads 0 0 7 1 (call env op) := by
  rw [call, if_pos h]
  exact (Leads.operands 7).bind fun x => callWith_leads 7 op _ _ _ _ _ _ _

theorem callWithoutValue_leads {op : CallOp} (h : ¬ op.hasValueArgs = true) : Leads 0 0 6 1 (call env op) := by
  rw [call, if_neg h]
  exact (Leads.operands 6).bind fun x => callWith_leads 6 op _ _ _ _ _ _ _

instance next_leads {t g : Nat} (p : Code Unit) [hp : Leads 0 0 t g p] : Leads 0 0 t g (next p) :=
  hp.bind fun _ => inferInstance

end Handler

/-! ## The opcodes -/

def Opcode.stackOp : Opcode → OperandStack.Op
  | .add | .mul | .sub | .div | .sdiv | .mod | .smod | .exp | .signextend | .lt | .gt | .slt | .sgt
  | .eq | .and | .or | .xor | .byte | .shl | .shr | .sar | .keccak256 => .plain 2 1
  | .addmod | .mulmod => .plain 3 1
  | .iszero | .not | .clz | .balance | .calldataload | .extcodesize | .extcodehash | .blockhash
  | .blobhash | .mload | .sload | .tload => .plain 1 1
  | .address | .origin | .caller | .callvalue | .calldatasize | .codesize | .gasprice
  | .returndatasize | .coinbase | .timestamp | .number | .prevrandao | .gaslimit | .chainid
  | .selfbalance | .basefee | .blobbasefee | .pc | .msize | .gas | .push0 | .push _ => .plain 0 1
  | .calldatacopy | .codecopy | .returndatacopy | .mcopy => .plain 3 0
  | .extcodecopy => .plain 4 0
  | .mstore | .mstore8 | .sstore | .tstore | .jumpi | .return' | .revert => .plain 2 0
  | .pop | .jump | .selfdestruct => .plain 1 0
  | .stop | .jumpdest | .invalid | .unknown => .plain 0 0
  | .dup n => .dup (n - 1)
  | .swap n => .swap n
  | .log n => .plain (n + 2) 0
  | .create .create => .plain 3 1
  | .create .create2 => .plain 4 1
  | .call op => .plain (if op.hasValueArgs then 7 else 6) 1

/-- The stack has changed as an instruction changes it, and the program counter has not. -/
structure Moved (op : OperandStack.Op) (m m' : Machine) : Prop where
  had : op.need ≤ m.stack.sp
  words : ∃ out, out.length = op.fresh ∧ m'.stack.words = op.run out m.stack.words
  pc : m'.pc = m.pc

theorem Since.moved {t g : Nat} {m m' : Machine} (h : Since t g m m') : Moved (.plain t g) m m' :=
  ⟨h.had, h.words, h.pc⟩

namespace Opcode

open Program

variable {env : Env} {maps : DecodeMaps} {host : Host} {m m' : Machine} {flow : Flow}

theorem exec_leads {o : Opcode} {t g : Nat} (plain : o.stackOp = .plain t g) (jump : o ≠ .jump)
    (jumpi : o ≠ .jumpi) : Leads 0 0 t g (o.exec env maps) := by
  cases o with
  | jump => exact absurd rfl jump
  | jumpi => exact absurd rfl jumpi
  | dup | swap => cases plain
  | create op =>
    cases op with
    | create | create2 => cases plain; exact Handler.next_leads _
  | call op =>
    cases plain
    refine @Handler.next_leads _ _ _ ?_
    split
    · next value => exact Handler.call_leads value
    · next value => exact Handler.callWithoutValue_leads value
  | _ =>
    cases plain
    simp only [exec]
    infer_instance

theorem next_ok {p : Code Unit} (eq : (Handler.next p).run (Machine.handle host) m = (.ok flow, m')) :
    flow = .next ∧ p.run (Machine.handle host) m = (.ok (), m') := by
  rw [Handler.next, run_bind] at eq
  cases first : p.run (Machine.handle host) m with
  | mk r m₁ =>
    rw [first] at eq
    cases r with
    | error e => cases congrArg Prod.fst eq
    | ok u =>
      obtain rfl := congrArg Prod.snd eq
      exact ⟨(Except.ok.inj (congrArg Prod.fst eq)).symm, rfl⟩

theorem exec_flow {o : Opcode} (jump : o ≠ .jump) (jumpi : o ≠ .jumpi)
    (eq : (o.exec env maps).run (Machine.handle host) m = (.ok flow, m')) : flow = .next := by
  cases o with
  | jump => exact absurd rfl jump
  | jumpi => exact absurd rfl jumpi
  | unknown => cases congrArg Prod.fst eq
  | _ => exact (next_ok eq).1

theorem dup_moved (n : Nat) (eq : ((Opcode.dup n).exec env maps).run (Machine.handle host) m = (.ok flow, m')) :
    Moved (.dup (n - 1)) m m' := by
  have ran := (next_ok eq).2
  rw [Code.run_dup] at ran
  split at ran
  · cases congrArg Prod.fst ran
  · next deep =>
    split at ran
    · cases congrArg Prod.fst ran
    · obtain rfl := congrArg Prod.snd ran
      have inside : n - 1 < m.stack.sp := by omega
      have copied : m.stack.words[n - 1]? = some (m.stack.peek (n - 1)) :=
        m.stack.getElem?_words inside
      refine ⟨inside, ⟨[], rfl, ?_⟩, rfl⟩
      rw [OperandStack.Op.run, copied]
      exact m.stack.words_push _

theorem swap_moved (n : Nat) (eq : ((Opcode.swap n).exec env maps).run (Machine.handle host) m = (.ok flow, m')) :
    Moved (.swap n) m m' := by
  have ran := (next_ok eq).2
  rw [Code.run_swap] at ran
  split at ran
  · cases congrArg Prod.fst ran
  · next deep =>
    obtain rfl := congrArg Prod.snd ran
    have inside : n < m.stack.sp := by omega
    have first : 0 < m.stack.sp := by omega
    refine ⟨inside, ⟨[], rfl, ?_⟩, rfl⟩
    rw [OperandStack.Op.run, m.stack.getElem?_words first, m.stack.getElem?_words inside]
    show ((m.stack.poke 0 (m.stack.peek n)).poke n (m.stack.peek 0)).words = _
    rw [Stack.words_poke (m.stack.poke 0 (m.stack.peek n)) inside, Stack.words_poke _ first]

/-- **The effect of an opcode on the stack.** -/
theorem exec_moved {o : Opcode} (jump : o ≠ .jump) (jumpi : o ≠ .jumpi)
    (eq : (o.exec env maps).run (Machine.handle host) m = (.ok flow, m')) : Moved o.stackOp m m' := by
  by_cases dup : ∃ n, o = .dup n
  · obtain ⟨n, rfl⟩ := dup
    exact dup_moved n eq
  by_cases swap : ∃ n, o = .swap n
  · obtain ⟨n, rfl⟩ := swap
    exact swap_moved n eq
  obtain ⟨t, g, plain⟩ : ∃ t g, o.stackOp = .plain t g := by
    cases o with
    | dup n => exact absurd ⟨n, rfl⟩ dup
    | swap n => exact absurd ⟨n, rfl⟩ swap
    | create op => cases op <;> exact ⟨_, _, rfl⟩
    | _ => exact ⟨_, _, rfl⟩
  rw [plain]
  exact ((exec_leads plain jump jumpi).since (.refl m) eq).moved

theorem push_words (n : Nat) (eq : ((Opcode.push n).exec env maps).run (Machine.handle host) m = (.ok flow, m')) :
    m'.stack.words = maps.pushValue m.pc :: m.stack.words := by
  have ran := (next_ok eq).2
  rw [Handler.pushN, run_bind_ok (a := m.pc) rfl, Code.run_pushChecked] at ran
  split at ran
  · cases congrArg Prod.fst ran
  · obtain rfl := congrArg Prod.snd ran
    exact m.stack.words_push _

theorem push0_words (eq : (Opcode.push0.exec env maps).run (Machine.handle host) m = (.ok flow, m')) :
    m'.stack.words = 0 :: m.stack.words := by
  have ran := (next_ok eq).2
  rw [Code.run_pushChecked] at ran
  split at ran
  · cases congrArg Prod.fst ran
  · obtain rfl := congrArg Prod.snd ran
    exact m.stack.words_push _

theorem jumpTo_ok {target : Word} (eq : (Handler.jumpTo env maps target).run (Machine.handle host) m = (.ok flow, m')) :
    flow = .jump ∧ uint256ToUint64 target < env.code.length ∧ maps.jumpDest (uint256ToUint64 target) = true ∧
      m' = { m with pc := uint256ToUint64 target } := by
  simp only [Handler.jumpTo] at eq
  split at eq
  · cases congrArg Prod.fst eq
  · next inside =>
    split at eq
    · cases congrArg Prod.fst eq
    · next dest =>
      have ran : (.ok Flow.jump, { m with pc := uint256ToUint64 target }) = (Except.ok flow, m') := eq
      exact ⟨(Except.ok.inj (congrArg Prod.fst ran)).symm, Nat.lt_of_not_le inside, by simpa using dest,
        (congrArg Prod.snd ran).symm⟩

end Opcode

end Dtvm
