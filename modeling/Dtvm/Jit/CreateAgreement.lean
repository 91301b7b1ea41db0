import Dtvm.Jit.CallAgreement

/-!
# Compiled and interpreted creations

Both reach the same message up to its flags: the interpreter sends none, compiled code sends the frame's own. Of
what comes back they keep the same, but for the return data of a creation that succeeds, which the interpreter
drops. So they agree exactly where no message is sent (the creation does not pass its checks, or the frame is too
deep or too poor), or where the frame has no flags and a creation that succeeds returns nothing
(`create_agrees_iff`). No part of a creation reads code, so nothing is assumed of the host.
-/

namespace Dtvm

structure CreateArgs where
  value : Word
  offset : Word
  size : Word
  salt : Word

namespace CreateOp

def operands : CreateOp → Nat
  | .create => 3
  | .create2 => 4

/-- The operands on a stack; `CREATE` has the salt zero. -/
def args (s : Stack) : CreateOp → CreateArgs
  | .create => ⟨s.peek 0, s.peek 1, s.peek 2, 0⟩
  | .create2 => ⟨s.peek 0, s.peek 1, s.peek 2, s.peek 3⟩

end CreateOp

/-- A creation where it is made. -/
structure CreateSite extends CreateArgs where
  host : Host
  env : Env
  op : CreateOp
  m : Machine

namespace CreateSite

/-- The creation that an opcode makes of a machine. -/
def of (host : Host) (env : Env) (op : CreateOp) (m : Machine) : CreateSite :=
  { op.args m.stack with host := host, env := env, op := op, m := m }

/-! ## What a creation pays and asks -/

variable (c : CreateSite)

def reach : Nat := demanded c.offset c.size

def wordsCost : Nat := Handler.initCodeWordCost c.env c.op * ((c.size.toNat + 31) / 32)

def cost : Nat := c.m.growCost c.reach + c.wordsCost

/-- The creation passes its checks and is paid for. -/
structure Passes : Prop where
  dynamic : ¬ c.env.msg.isStaticMode = true
  near : c.reach ≤ maxRequiredMemorySize
  short : .shanghai ≤ c.env.rev → c.size.toNat ≤ Handler.maxSizeOfInitcode
  pays : c.cost ≤ c.m.gas

def balance : Word := c.host c.m.trace (.getBalance c.env.msg.recipient)

/-- The frame is not too deep, and its account can pay the value. -/
structure Offered : Prop where
  shallow : c.env.msg.depth < maxStack
  solvent : c.value ≠ 0 → c.value.toNat ≤ c.balance.toNat

def inquired : List HostEvent :=
  if c.value ≠ 0 then c.host.asked c.m.trace (.getBalance c.env.msg.recipient) else c.m.trace

def paid : Machine :=
  { c.m.grow c.reach with
    gas := c.m.gas - c.cost
    trace := if c.env.msg.depth < maxStack then c.inquired else c.m.trace }

/-- The gas of the message. -/
def given : Nat := Handler.allButOne64th c.env (c.m.gas - c.cost)

def initCode : Bytes :=
  ((c.m.grow c.reach).memory.drop (Handler.regionOffset c.offset c.size.low64)).take c.size.low64

def message : Message := Handler.createMessage c.env c.op c.given c.value c.salt c.initCode

def compiledMessage : Message := Jit.createMessage c.env c.op c.given c.value c.salt c.initCode

/-- What the host answers to the interpreter's message. -/
def answer : CallResult := c.host c.paid.trace (.call c.message)

/-- What a result makes of a machine that has paid; `data` is what is kept of its output. -/
def afterCreate (p : Machine) (gas : Nat) (data : CallResult → Bytes) (r : CallResult) : Machine :=
  { p with
    stack := p.stack.push (if r.status = .success then r.createAddress.toWord else 0)
    gas := p.gas - (gas - r.gasLeft.toNat)
    refund := p.refund + r.gasRefund
    returnData := data r }

noncomputable def course (msg : Message) (data : CallResult → Bytes) : Course :=
  .of c.Passes c.Offered c.paid msg (afterCreate c.paid c.given data)

end CreateSite

namespace Jit

open Effect Program Code Course

variable {c : CreateSite} {host : Host} {env : Env} {op : CreateOp} {b m : Machine} {st : Stack} {rd : Bytes} {g : Nat}

/-! ## Init code -/

theorem initCodeWords {size : Word} (small : size.toNat < 2 ^ 64) :
    uint256ToUint64 ((size + 31) / 32) = (size.toNat + 31) / 32 := by
  have sum : (size + 31).toNat = size.toNat + 31 := by
    rw [BitVec.toNat_add]
    exact Nat.mod_eq_of_lt (by show size.toNat + 31 < 2 ^ 256; omega)
  have words : ((size + 31) / 32 : Word).toNat = (size.toNat + 31) / 32 := by
    rw [BitVec.toNat_udiv, sum]
    rfl
  rw [uint256ToUint64, words, if_pos (by omega)]

/-- What the words of init code come to, with the gas of a machine. -/
def charged (c : CreateSite) (t : Machine) : Except Halt Unit × Machine :=
  if (.shanghai ≤ c.env.rev → c.size.toNat ≤ Handler.maxSizeOfInitcode) ∧ c.wordsCost ≤ t.gas
    then (.ok (), { t with gas := t.gas - c.wordsCost }) else (.error (.fail .outOfGas), t)

theorem run_handlerInitCode (small : c.size.toNat < 2 ^ 64) (t : Machine) :
    (if .shanghai ≤ c.env.rev ∧ c.size.toNat > Handler.maxSizeOfInitcode then fail .outOfGas
      else charge (Handler.initCodeWordCost c.env c.op * uint256ToUint64 ((c.size + 31) / 32)) : Code Unit).run
      (Machine.handle host) t = charged c t := by
  rw [initCodeWords small, charged, ← CreateSite.wordsCost]
  by_cases large : .shanghai ≤ c.env.rev ∧ c.size.toNat > Handler.maxSizeOfInitcode
  · rw [if_pos large, if_neg fun fine => absurd (fine.1 large.1) (by omega)]
    rfl
  · have fine : .shanghai ≤ c.env.rev → c.size.toNat ≤ Handler.maxSizeOfInitcode :=
      fun late => not_lt.mp fun more => large ⟨late, more⟩
    rw [if_neg large, run_charge_le]
    exact if_congr (and_iff_right fine).symm rfl rfl

/-- Compiled code skips a charge of zero. -/
theorem run_initCode (small : c.size.toNat < 2 ^ 64) (t : Machine) :
    (chargeInitCode c.env c.op c.size.low64).run (Machine.handle host) t = charged c t := by
  rw [← run_handlerInitCode small, initCodeWords small, chargeInitCode, low64_of_lt small]
  by_cases large : .shanghai ≤ c.env.rev ∧ c.size.toNat > Handler.maxSizeOfInitcode
  · rw [if_pos large, Code.when, if_pos large, run_bind_error (run_exhaust t)]
    rfl
  · rw [if_neg large, Code.when, if_neg large, pure_bind, Code.when]
    split
    · rfl
    · next free =>
      have zero : Handler.initCodeWordCost c.env c.op * ((c.size.toNat + 31) / 32) = 0 := by
        rw [Nat.mul_eq_zero]
        by_cases cost : Handler.initCodeWordCost c.env c.op = 0
        · exact .inl cost
        · have empty : c.size.toNat = 0 := by_contra fun some => free ⟨cost, some⟩
          exact .inr (by rw [empty])
      rw [zero, run_charge_le, if_pos (Nat.zero_le _)]
      rfl

/-! ## Sending -/

theorem run_canPay : (Handler.canPay c.env c.value).run (Machine.handle c.host) (b.side st rd g c.m.trace) =
      (.ok (decide (c.value ≠ 0 → c.value.toNat ≤ c.balance.toNat)), b.side st rd g c.inquired) := by
  unfold Handler.canPay CreateSite.inquired
  by_cases zero : c.value = 0
  · simp [zero]
  · simp only [ne_eq, zero, not_false_eq_true, forall_const, if_true]
    exact run_bind_ok (run_host c.host _ _) _

theorem run_sendCreate (room : m.stack.sp + 1 ≤ maxStack) {msg : Message} (given : msg.gas ≤ m.gas) :
    (sendCreate msg >>= Code.push).run (Machine.handle host) m =
      delivered host m msg (CreateSite.afterCreate m msg.gas CallResult.output) := by
  unfold sendCreate
  simp only [bind_assoc, pure_bind]
  rw [run_bind_ok (run_host host _ _)]
  refine (run_bind_charge (by exact (Nat.sub_le _ _).trans given) _).trans ?_
  rw [run_bind_ok (run_addRefund host _ _), run_bind_ok (run_setReturnData host _ _)]
  exact run_push_of_room (by exact room) _

/-- The interpreter keeps the output of a creation that fails. -/
def keptOutput (r : CallResult) : Bytes := if r.status = .success then [] else r.output

theorem run_handlerSendCreate (room : m.stack.sp + 1 ≤ maxStack) {value salt : Word} {input : Bytes} {msg : Message}
    (sent : Handler.createMessage env op (Handler.allButOne64th env m.gas) value salt input = msg) :
    (Handler.sendCreate env op value salt input).run (Machine.handle host) (opened m) =
      delivered host m msg (CreateSite.afterCreate m msg.gas keptOutput) := by
  unfold Handler.sendCreate
  rw [run_bind_ok (run_gas host _), run_bind_ok (run_host host _ _)]
  refine (run_bind_charge (by exact (Nat.sub_le _ _).trans (Handler.allButOne64th_le env m.gas)) _).trans ?_
  rw [run_bind_ok (run_addRefund host _ _)]
  subst sent
  split
  · next success =>
    rw [run_bind_ok (run_setReturnData host _ _), run_replaceTop rfl room, delivered, CreateSite.afterCreate, keptOutput,
      if_pos (by exact success), if_pos (by exact success)]
    rfl
  · next failure =>
    rw [run_setReturnData, delivered, CreateSite.afterCreate, keptOutput, if_neg (by exact failure),
      if_neg (by exact failure)]
    rfl

/-! ## Both courses -/

theorem messages_createPaid : messages c.paid.trace = messages c.m.trace := by
  show messages (if _ then c.inquired else _) = _
  unfold CreateSite.inquired
  split
  · split
    · exact messages_asked rfl
    · rfl
  · rfl

/-- **The course behind the memory**: `pay` charges for the init code, and `light` ends the run without a message. -/
theorem create_taken (grown : c.reach ≤ maxRequiredMemorySize ∧ c.m.growCost c.reach ≤ c.m.gas)
    (dynamic : ¬ c.env.msg.isStaticMode = true) {pay light : Code Unit} {next : Bool → Code Unit} {msg : Message}
    {data : CallResult → Bytes} (poor : next false = light)
    (pays : ∀ t, pay.run (Machine.handle c.host) t = charged c t)
    (declines : light.run (Machine.handle c.host) { c.paid with stack := st, returnData := rd } = (.ok (), opened c.paid))
    (sends : (next true).run (Machine.handle c.host) { c.paid with stack := st, returnData := rd } =
      delivered c.host c.paid msg (CreateSite.afterCreate c.paid c.given data)) :
    (c.course msg data).Taken c.host c.m.trace ((do
      pay
      if c.env.msg.depth ≥ maxStack then light else Handler.canPay c.env c.value >>= next).run (Machine.handle c.host)
        ((c.m.grow c.reach).side st rd (c.m.gas - c.m.growCost c.reach) c.m.trace)) := by
  have left : c.m.gas - c.m.growCost c.reach - c.wordsCost = c.m.gas - c.cost := Nat.sub_sub _ _ _
  refine of_step (pays _) rfl (fun passes => ⟨passes.short, Nat.le_sub_of_add_le' passes.pays⟩) fun fine => ?_
  have enough : c.wordsCost ≤ c.m.gas - c.m.growCost c.reach := fine.2
  have passes : c.Passes := ⟨dynamic, grown.1, fine.1, by unfold CreateSite.cost; omega⟩
  show Taken _ _ (Program.run _ _ ((c.m.grow c.reach).side st rd (_ - _) _)) _
  rw [left]
  by_cases shallow : c.env.msg.depth < maxStack
  · have paid : (c.m.grow c.reach).side st rd (c.m.gas - c.cost) c.inquired =
        { c.paid with stack := st, returnData := rd } := by
      rw [CreateSite.paid, if_pos shallow]
    rw [if_neg (not_le.mpr shallow), run_bind_ok run_canPay, paid]
    refine of_taken messages_createPaid passes (fun out => ?_) fun offered => ?_
    · rw [decide_eq_false fun solvent => out ⟨shallow, solvent⟩, poor]
      exact declines
    · rw [decide_eq_true offered.solvent]
      exact sends
  · have paid : (c.m.grow c.reach).side st rd (c.m.gas - c.cost) c.m.trace =
        { c.paid with stack := st, returnData := rd } := by
      rw [CreateSite.paid, if_neg shallow]
    rw [if_pos (not_lt.mp shallow), paid]
    exact of_taken messages_createPaid passes (fun _ => declines) fun offered => absurd offered.shallow shallow

theorem growCost_le (passes : c.Passes) : c.reach ≤ maxRequiredMemorySize ∧ c.m.growCost c.reach ≤ c.m.gas :=
  ⟨passes.near, (Nat.le_add_right _ _).trans passes.pays⟩

/-- **The interpreter's course.** -/
theorem handlerCreate_taken (room : c.m.stack.sp + 1 ≤ maxStack) : (c.course c.message keptOutput).Taken c.host c.m.trace
      ((Handler.createWith c.env c.op c.value c.offset c.size c.salt).run (Machine.handle c.host) c.m) := by
  unfold Handler.createWith
  rw [run_opening room]
  refine of_guard (run_fail _ _ _) rfl (·.dynamic) fun static => ?_
  rw [Handler.chargeInitCode, bind_assoc]
  refine of_step (Handler.run_checkMemoryExpandAndChargeGas _ _ _) rfl growCost_le fun grown => ?_
  refine create_taken grown static rfl (run_handlerInitCode (fits_of_demanded grown.1).1) rfl ?_
  rw [Code.when, if_pos rfl, run_bind_ok (run_memoryRead c.host _ _ _)]
  exact run_handlerSendCreate (m := c.paid) room rfl

/-- **The course of compiled code.** -/
theorem compiledCreate_taken (room : c.m.stack.sp + 1 ≤ maxStack) :
    (c.course c.compiledMessage CallResult.output).Taken c.host c.m.trace
      ((createWith c.env c.op c.value c.offset c.size c.salt).run (Machine.handle c.host) c.m) := by
  unfold createWith
  refine of_step (run_normalize _ _ _) rfl (fun passes => fits_of_demanded passes.near) fun fits => ?_
  simp only [evmHandleCreateInternal]
  rw [apply_ite (· >>= Code.push)]
  refine of_guard (run_bind_error (run_fail _ _ _) _) rfl (·.dynamic) fun static => ?_
  rw [bind_assoc]
  refine of_step (run_expandMemoryChecked fits _) rfl growCost_le fun grown => ?_
  rw [if_neg (by decide), bind_assoc]
  simp only [apply_ite (· >>= Code.push), bind_assoc]
  refine create_taken grown static rfl (run_initCode fits.1) (run_lightFailure (w := c.paid) room) ?_
  simp only [if_true]
  rw [run_bind_ok (run_gas c.host _), run_bind_ok (run_memoryRead c.host _ _ _)]
  exact run_sendCreate (m := c.paid) room (Handler.allButOne64th_le _ _)

/-! ## The verdict -/

/-- **The messages.** Compiled code passes on the frame's flags. -/
theorem createMessage_eq_iff (gas : Nat) (value salt : Word) (input : Bytes) (noSalt : op = .create → salt = 0) :
    Handler.createMessage env op gas value salt input = createMessage env op gas value salt input ↔
      env.msg.flags = 0 := by
  have salts : (if op = .create2 then salt else 0) = salt := by
    cases op with
    | create => rw [noSalt rfl]; rfl
    | create2 => rfl
  unfold Handler.createMessage createMessage
  rw [salts]
  simp only [Message.mk.injEq, true_and, and_true]
  exact eq_comm

theorem keptOutput_eq_iff (r : CallResult) : keptOutput r = r.output ↔ (r.status = .success → r.output = []) := by
  unfold keptOutput
  by_cases success : r.status = .success
  · rw [if_pos success, eq_comm]
    exact ⟨fun none _ => none, fun none => none success⟩
  · rw [if_neg success]
    exact iff_of_true rfl fun done => absurd done success

/-- The courses decide, and no more than the messages and what is kept of the output. -/
theorem createWith_agree_iff (noSalt : c.op = .create → c.salt = 0) (room : c.m.stack.sp + 1 ≤ maxStack) :
    Agree ((Handler.createWith c.env c.op c.value c.offset c.size c.salt).run (Machine.handle c.host) c.m)
      ((createWith c.env c.op c.value c.offset c.size c.salt).run (Machine.handle c.host) c.m) ↔
      (c.Passes ∧ c.Offered → c.env.msg.flags = 0 ∧ (c.answer.status = .success → c.answer.output = [])) := by
  rw [(handlerCreate_taken room).agree_iff (compiledCreate_taken room)]
  show (Course.of _ _ { c.paid with trace := c.paid.trace } _ _).Matches _ (Course.of _ _ _ _ _) ↔ _
  rw [Course.of_matches_iff Iff.rfl Iff.rfl]
  refine imp_congr_right fun _ => ?_
  rw [CreateSite.message, CreateSite.compiledMessage, createMessage_eq_iff _ _ _ _ noSalt]
  refine and_congr_right fun none => ?_
  rw [← (createMessage_eq_iff _ c.value c.salt _ noSalt).mpr none, ← keptOutput_eq_iff]
  change SameAfter (CreateSite.afterCreate _ _ _ c.answer) (CreateSite.afterCreate _ _ _ c.answer) ↔ _
  constructor
  · exact fun same => congrArg Machine.returnData same
  · intro same
    rw [CreateSite.afterCreate, same]
    rfl

/-- **Compiled and interpreted creations.** They agree if no message is sent, or if the frame has no flags to pass
on and a creation that succeeds returns nothing. -/
theorem create_agrees_iff (host : Host) (env : Env) (op : CreateOp) (m : Machine) (bounded : m.stack.sp ≤ maxStack) :
    let c := CreateSite.of host env op m
    Agree ((Handler.create env op).run (Machine.handle host) m) ((create env op).run (Machine.handle host) m) ↔
      (op.operands ≤ m.stack.sp ∧ c.Passes ∧ c.Offered →
        env.msg.flags = 0 ∧ (c.answer.status = .success → c.answer.output = [])) := by
  intro c
  have passes : ∀ st, CreateSite.Passes { c with m := { m with stack := st } } ↔ c.Passes := fun st =>
    ⟨fun h => ⟨h.dynamic, h.near, h.short, h.pays⟩, fun h => ⟨h.dynamic, h.near, h.short, h.pays⟩⟩
  have offered : ∀ st, CreateSite.Offered { c with m := { m with stack := st } } ↔ c.Offered := fun st =>
    ⟨fun h => ⟨h.shallow, h.solvent⟩, fun h => ⟨h.shallow, h.solvent⟩⟩
  have decides : ∀ {st : Stack}, (op = .create → c.salt = 0) → st.sp + 1 ≤ maxStack → _ := fun {st} noSalt room =>
    (createWith_agree_iff (c := { c with m := { m with stack := st } }) noSalt room).trans
      (imp_congr_left (and_congr (passes st) (offered st)))
  rw [and_imp]
  cases op with
  | create => exact operands_agree_iff 3 fun enough => decides (fun _ => rfl) (room_after_pop (by decide) enough bounded)
  | create2 =>
    exact operands_agree_iff 4 fun enough => decides (fun no => by cases no) (room_after_pop (by decide) enough bounded)

/-- **A creation that agrees**: with a value, four bytes of init code and a salt. -/
theorem creations_agree : Agree ((Handler.create (plainEnv .cancun 0) .create2).run
        (Machine.handle (wealthy ⟨.success, 700, 0, [], 4660⟩)) (withStack [5, 0, 4, 7]))
      ((create (plainEnv .cancun 0) .create2).run
        (Machine.handle (wealthy ⟨.success, 700, 0, [], 4660⟩)) (withStack [5, 0, 4, 7])) ∧
    (messages ((create (plainEnv .cancun 0) .create2).run
      (Machine.handle (wealthy ⟨.success, 700, 0, [], 4660⟩)) (withStack [5, 0, 4, 7])).2.trace).length = 1 :=
  ⟨(create_agrees_iff _ _ .create2 _ (by decide)).mpr fun _ => ⟨rfl, fun _ => rfl⟩, by decide +kernel⟩

def returning : Host := fun t r => match r with
  | .call _ => ⟨.success, 0, 0, [1], 1⟩
  | r => Host.idle t r

/-- **Creations that differ**: one from a frame with a flag, and one that succeeds and returns. -/
theorem creations_differ : ¬ Agree ((Handler.create (plainEnv .cancun evmcDelegated) .create).run (Machine.handle .idle)
        withOperands) ((create (plainEnv .cancun evmcDelegated) .create).run (Machine.handle .idle) withOperands) ∧
    ¬ Agree ((Handler.create (plainEnv .cancun 0) .create).run (Machine.handle returning) withOperands)
      ((create (plainEnv .cancun 0) .create).run (Machine.handle returning) withOperands) := by
  constructor
  · intro agree
    exact absurd agree.messages_eq (by decide +kernel)
  · intro agree
    exact absurd (congrArg Machine.returnData agree.2) (by decide +kernel)

end Jit

end Dtvm
