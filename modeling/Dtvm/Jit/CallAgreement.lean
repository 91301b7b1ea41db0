import Dtvm.Evm.Static
import Dtvm.Jit.Memory

/-!
# Compiled and interpreted calls

Both pay for the same things and reach the same message up to what has to do with delegated code: the interpreter
follows a delegation of the target, pays for it and marks the message with it, and it clears the mark that a frame
running delegated code carries itself; compiled code does neither. Which course a call takes is a matter of its
operands, the frame's message and gas, and the host's answers (`Passes`, `Offered`), so the inputs on which the two
agree are told apart exactly (`call_agrees_iff`).

Compiled code treats a static call as one with a value operand, which matters before Spurious Dragon only.
-/

namespace Dtvm

structure CallArgs where
  requested : Word
  dest : Address
  value : Word
  inputOffset : Word
  inputSize : Word
  outputOffset : Word
  outputSize : Word

namespace CallOp

def operands (op : CallOp) : Nat := if op.hasValueArgs then 7 else 6

/-- The operands on a stack; an opcode that takes no value calls with the value zero. -/
def args (op : CallOp) (s : Stack) : CallArgs :=
  if op.hasValueArgs then ⟨s.peek 0, (s.peek 1).toAddress, s.peek 2, s.peek 3, s.peek 4, s.peek 5, s.peek 6⟩
  else ⟨s.peek 0, (s.peek 1).toAddress, 0, s.peek 2, s.peek 3, s.peek 4, s.peek 5⟩

end CallOp

/-- The host answers alike after both. -/
def Indifferent (host : Host) (t t' : List HostEvent) : Prop := ∀ x r, host (t ++ x) r = host (t' ++ x) r

/-- Accessing an account once more has no effect on what the host answers later. -/
def Host.IgnoresRepeatedAccess (host : Host) : Prop :=
  ∀ t a x, ⟨.accessAccount a, x⟩ ∈ t → Indifferent host t (host.asked t (.accessAccount a))

/-- A call where it is made. -/
structure CallSite extends CallArgs where
  host : Host
  env : Env
  op : CallOp
  m : Machine

/-- Where a side stands when it has found the code to call: whose it is, what that cost, and what the host was
asked for it. -/
structure Start where
  code : Address
  cost : Nat
  trace : List HostEvent

namespace CallSite

/-- The call that an opcode makes of a machine. -/
def of (host : Host) (env : Env) (op : CallOp) (m : Machine) : CallSite :=
  { op.args m.stack with host := host, env := env, op := op, m := m }

/-! ## What a call pays and asks -/

variable (c : CallSite)

/-- The end of the memory that the call needs. -/
def reach : Nat := max (demanded c.inputOffset c.inputSize) (demanded c.outputOffset c.outputSize)

def accessed : List HostEvent :=
  if .berlin ≤ c.env.rev then c.host.asked c.m.trace (.accessAccount c.dest) else c.m.trace

def accessCost : Nat :=
  if .berlin ≤ c.env.rev ∧ c.host c.m.trace (.accessAccount c.dest) = .cold
    then Handler.additionalColdAccountAccessCost else 0

/-- Compiled code calls the target's own code. -/
def compiledStart : Start := ⟨c.dest, c.accessCost, c.accessed⟩

/-- The account that the target's code delegates to. -/
def delegation : Option Address :=
  if .prague ≤ c.env.rev then Handler.delegationTarget ((c.host c.accessed (.copyCode c.dest 0 23)).take 23) else none

def codeRead : List HostEvent := c.host.asked c.accessed (.copyCode c.dest 0 23)

def delegationCost (code : Address) : Nat :=
  if c.host c.codeRead (.accessAccount code) = .cold then Handler.coldAccountAccessCost
  else Handler.warmStorageReadCost

/-- The interpreter follows a delegation. -/
def interpretedStart : Start :=
  match c.delegation with
  | some code => ⟨code, c.accessCost + c.delegationCost code, c.host.asked c.codeRead (.accessAccount code)⟩
  | none => ⟨c.dest, c.accessCost, if .prague ≤ c.env.rev then c.codeRead else c.accessed⟩

/-- The call may bring an account into being, so that the host is asked whether there is one. -/
def looksUp : Prop :=
  c.op.hasValueArgs = true ∧ c.op.kind = .call ∧ (c.value ≠ 0 ∨ c.env.rev < .spuriousDragon)

instance : Decidable c.looksUp := inferInstanceAs (Decidable (_ ∧ _))

def stipend : Nat := if c.value ≠ 0 then Handler.callGasStipend else 0

section

variable (t : List HostEvent)

def looked : List HostEvent := if c.looksUp then c.host.asked t (.accountExists c.dest) else t

def valueCost : Nat :=
  (if c.value ≠ 0 then Handler.callValueCost else 0) +
    if c.looksUp ∧ c.host t (.accountExists c.dest) = false then Handler.accountCreationCost else 0

def balance : Word := c.host (c.looked t) (.getBalance c.env.msg.recipient)

/-- What the host has been asked when the message is due. -/
def inquired : List HostEvent :=
  if c.value ≠ 0 then c.host.asked (c.looked t) (.getBalance c.env.msg.recipient) else c.looked t

end

variable (s : Start)

/-- Everything that is charged before the message. -/
def cost : Nat := s.cost + c.m.growCost c.reach + c.valueCost s.trace

/-- The call passes its checks and is paid for. -/
structure Passes : Prop where
  dynamic : ¬ (c.op = .call ∧ c.value ≠ 0 ∧ c.env.msg.isStaticMode = true)
  near : c.reach ≤ maxRequiredMemorySize
  pays : c.cost s ≤ c.m.gas
  asked : c.env.rev < .tangerineWhistle → uint256ToUint64 c.requested ≤ c.m.gas - c.cost s

/-- The frame is not too deep, and its account can pay the value. -/
structure Offered : Prop where
  shallow : c.env.msg.depth < maxStack
  solvent : c.value ≠ 0 → c.value.toNat ≤ (c.balance s.trace).toNat

def paid : Machine :=
  { c.m.grow c.reach with gas := c.m.gas - c.cost s + c.stipend, trace := c.inquired s.trace }

/-- The gas of the message. -/
def given : Nat :=
  let left := c.m.gas - c.cost s
  (if .tangerineWhistle ≤ c.env.rev then min (uint256ToUint64 c.requested) (left - left / 64)
    else uint256ToUint64 c.requested) + c.stipend

def input : Bytes :=
  ((c.m.grow c.reach).memory.drop (Handler.regionOffset c.inputOffset c.inputSize.low64)).take c.inputSize.low64

/-- What a result makes of a machine that has paid. -/
def afterCall (p : Machine) (gas offset size : Nat) (r : CallResult) : Machine :=
  { p with
    stack := p.stack.push (if r.status = .success then 1 else 0)
    memory := overwrite p.memory offset (r.output.take size)
    gas := p.gas - (gas - r.gasLeft.toNat)
    refund := p.refund + r.gasRefund
    returnData := r.output }

def done : CallResult → Machine :=
  afterCall (c.paid s) (c.given s) (Handler.regionOffset c.outputOffset c.outputSize.low64) c.outputSize.low64

noncomputable def course (msg : Message) : Course := .of (c.Passes s) (c.Offered s) (c.paid s) msg (c.done s)

def message : Message := Handler.callMessage c.env c.op c.dest s.code (c.given s) c.value c.input

def compiledMessage : Message :=
  Jit.callMessage c.env c.op.kind (c.op = .staticcall) c.dest (c.given s) c.value c.input

def handler : Code Unit := Handler.callWith c.env c.op c.requested c.dest c.value c.inputOffset c.inputSize
  c.outputOffset c.outputSize

def compiled : Code Unit := Jit.callWith c.env c.op c.requested c.dest c.value c.inputOffset c.inputSize
  c.outputOffset c.outputSize

end CallSite

/-! ## Where the host answers alike -/

namespace Indifferent

variable {host : Host} {t t' : List HostEvent} {c : CallSite} {s s' : Start}

theorem answer (h : Indifferent host t t') (r : HostReq) : host t r = host t' r := by
  simpa using h [] r

theorem asked (h : Indifferent host t t') (r : HostReq) : Indifferent host (host.asked t r) (host.asked t' r) := by
  intro x q
  rw [Host.asked, Host.asked, h.answer r, List.append_assoc, List.append_assoc]
  exact h _ q

theorem looked (h : Indifferent c.host t t') : Indifferent c.host (c.looked t) (c.looked t') := by
  unfold CallSite.looked
  split
  · exact h.asked _
  · exact h

theorem inquired (h : Indifferent c.host t t') : Indifferent c.host (c.inquired t) (c.inquired t') := by
  unfold CallSite.inquired
  split
  · exact h.looked.asked _
  · exact h.looked

theorem codeRead (ignores : c.host.IgnoresCodeReads) : Indifferent c.host c.accessed c.codeRead := by
  intro x r
  refine ignores _ _ _ ?_
  rw [CallSite.codeRead, Host.asked]
  simp [seen, HostEvent.isCodeRead]

variable (h : Indifferent c.host s.trace s'.trace)
include h

theorem offered_iff : c.Offered s' ↔ c.Offered s := by
  have balance : c.balance s.trace = c.balance s'.trace := h.looked.answer _
  constructor
  · exact fun o => ⟨o.shallow, balance ▸ o.solvent⟩
  · exact fun o => ⟨o.shallow, balance ▸ o.solvent⟩

variable (same : s.cost = s'.cost)
include same

theorem cost_eq : c.cost s' = c.cost s := by
  rw [CallSite.cost, CallSite.cost, same, CallSite.valueCost, CallSite.valueCost, h.answer]

theorem given_eq : c.given s' = c.given s := by
  rw [CallSite.given, CallSite.given, h.cost_eq same]

/-- **Where both stand alike, the messages decide.** -/
theorem course_matches_iff {msg msg' : Message} :
    (c.course s' msg').Matches c.host (c.course s msg) ↔ (c.Passes s ∧ c.Offered s → msg' = msg) := by
  have cost := h.cost_eq same
  have passes : c.Passes s' ↔ c.Passes s := by
    constructor
    · exact fun p => ⟨p.dynamic, p.near, cost ▸ p.pays, cost ▸ p.asked⟩
    · exact fun p => ⟨p.dynamic, p.near, cost ▸ p.pays, cost ▸ p.asked⟩
  have paid : c.paid s' = { c.paid s with trace := c.inquired s'.trace } := by rw [CallSite.paid, CallSite.paid, cost]
  rw [CallSite.course, CallSite.course, CallSite.done, paid, h.given_eq same, Course.of_matches_iff passes h.offered_iff]
  refine imp_congr_right fun _ => and_iff_left_of_imp fun same => ?_
  rw [same, show c.host (c.paid s).trace _ = _ from h.inquired.answer _]
  rfl

end Indifferent

namespace Jit

open Effect Program Code Course

variable {c : CallSite} {s : Start} {b : Machine} {st : Stack} {rd : Bytes} {g : Nat} {t : List HostEvent}

/-! ## Asking and paying -/

theorem messages_accessed : messages c.accessed = messages c.m.trace := by
  unfold CallSite.accessed
  split
  · exact messages_asked rfl
  · rfl

theorem messages_codeRead : messages c.codeRead = messages c.m.trace :=
  (messages_asked rfl).trans messages_accessed

theorem messages_interpretedStart : messages c.interpretedStart.trace = messages c.m.trace := by
  unfold CallSite.interpretedStart
  split
  · exact (messages_asked rfl).trans messages_codeRead
  · show messages (if _ then _ else _) = _
    split
    · exact messages_codeRead
    · exact messages_accessed

theorem messages_looked : messages (c.looked t) = messages t := by
  unfold CallSite.looked
  split
  · exact messages_asked rfl
  · rfl

theorem messages_inquired : messages (c.inquired t) = messages t := by
  unfold CallSite.inquired
  split
  · exact (messages_asked rfl).trans messages_looked
  · exact messages_looked

theorem run_charge_le {host : Host} (n : Nat) (m : Machine) : (charge n).run (Machine.handle host) m =
      if n ≤ m.gas then (.ok (), { m with gas := m.gas - n }) else (.error (.fail .outOfGas), m) := by
  rw [run_charge, ← ite_not]
  exact if_congr (by omega) rfl rfl

theorem run_charge_pure {host : Host} {α : Type} (n : Nat) (v : α) (m : Machine) :
    (charge n >>= fun _ => pure v).run (Machine.handle host) m =
      if n ≤ m.gas then (.ok v, { m with gas := m.gas - n }) else (.error (.fail .outOfGas), m) := by
  rw [run_bind, run_charge_le]
  by_cases enough : n ≤ m.gas <;> simp [enough]

theorem run_chargeAccountAccess : (Handler.chargeAccountAccess c.env c.dest).run (Machine.handle c.host)
        (b.side st rd g c.m.trace) =
      if c.accessCost ≤ g then (.ok (), b.side st rd (g - c.accessCost) c.accessed)
      else (.error (.fail .outOfGas), b.side st rd g c.accessed) := by
  unfold Handler.chargeAccountAccess CallSite.accessCost CallSite.accessed
  by_cases berlin : .berlin ≤ c.env.rev
  · rw [if_pos berlin, run_bind_ok (run_host c.host _ _), Code.when]
    simp only [berlin, true_and, if_true]
    split
    · exact run_charge_le _ _
    · simp
      rfl
  · simp [berlin]

theorem run_resolve (start : c.interpretedStart = s) :
    (Handler.resolveDelegatedCallCodeAddress c.env c.dest).run (Machine.handle c.host) (b.side st rd g c.accessed) =
      if s.cost - c.accessCost ≤ g then (.ok s.code, b.side st rd (g - (s.cost - c.accessCost)) s.trace)
      else (.error (.fail .outOfGas), b.side st rd g s.trace) := by
  subst start
  unfold Handler.resolveDelegatedCallCodeAddress CallSite.interpretedStart CallSite.delegation
  by_cases old : c.env.rev < .prague
  · have early : ¬ .prague ≤ c.env.rev := fun late => Revision.not_lt.mpr late old
    rw [if_pos old, if_neg early]
    simp [early]
  · have late := Revision.not_lt.mp old
    rw [if_neg old, if_pos late, run_bind_ok (run_host c.host _ _)]
    cases Handler.delegationTarget ((c.host c.accessed (.copyCode c.dest 0 23)).take 23) with
    | none => simp [late, CallSite.codeRead, Host.asked]
    | some code =>
      rw [Nat.add_sub_cancel_left]
      exact (run_bind_ok (run_host c.host _ _) _).trans (run_charge_pure _ _ _)

theorem run_handlerChargeCallValue (noValue : c.op.hasValueArgs = false → c.value = 0) :
    (Handler.chargeCallValue c.env c.op c.dest c.value).run (Machine.handle c.host) (b.side st rd g t) =
      if c.valueCost t ≤ g then (.ok (), b.side st rd (g - c.valueCost t) (c.looked t))
      else (.error (.fail .outOfGas), b.side st rd g (c.looked t)) := by
  unfold Handler.chargeCallValue Handler.newAccountCost CallSite.valueCost CallSite.looked
  by_cases has : c.op.hasValueArgs = true
  · rw [if_pos has]
    by_cases asks : c.op.kind = .call ∧ (c.value ≠ 0 ∨ c.env.rev < .spuriousDragon)
    · have up : c.looksUp := ⟨has, asks⟩
      rw [if_pos asks, bind_assoc, run_bind_ok (run_host c.host _ _), pure_bind, run_charge_le]
      by_cases found : c.host t (.accountExists c.dest) = true <;> simp [up, found, Host.asked]
    · have up : ¬ c.looksUp := fun up => asks up.2
      rw [if_neg asks, pure_bind, run_charge_le]
      simp [up]
  · have up : ¬ c.looksUp := fun up => has up.1
    simp [has, up, noValue (Bool.eq_false_iff.mpr has)]

theorem run_capCallGas : (Handler.capCallGas c.env c.requested).run (Machine.handle c.host) b =
      if c.env.rev < .tangerineWhistle → uint256ToUint64 c.requested ≤ b.gas
        then (.ok (if .tangerineWhistle ≤ c.env.rev then min (uint256ToUint64 c.requested) (b.gas - b.gas / 64)
          else uint256ToUint64 c.requested), b) else (.error (.fail .outOfGas), b) := by
  unfold Handler.capCallGas
  rw [run_bind_ok (run_gas c.host b)]
  by_cases old : c.env.rev < .tangerineWhistle
  · have early : ¬ .tangerineWhistle ≤ c.env.rev := fun late => Revision.not_lt.mpr late old
    by_cases enough : uint256ToUint64 c.requested ≤ b.gas
    · simp [early, enough, not_lt.mpr enough]
    · simp [old, early, enough, not_le.mp enough]
  · simp [old, Revision.not_lt.mp old]

theorem run_addStipend (noValue : c.op.hasValueArgs = false → c.value = 0) (n : Nat) :
    (Handler.addStipend c.env c.op c.value n).run (Machine.handle c.host) (b.side st rd g (c.looked t)) =
      (.ok (if c.value ≠ 0 → c.value.toNat ≤ (c.balance t).toNat then some (n + c.stipend) else none),
        b.side st rd (g + c.stipend) (c.inquired t)) := by
  unfold Handler.addStipend CallSite.stipend CallSite.inquired
  by_cases zero : c.value = 0
  · simp [zero]
  · have has : c.op.hasValueArgs = true := by
      by_contra lacks
      exact zero (noValue (Bool.eq_false_iff.mpr lacks))
    simp only [ne_eq, has, zero, not_false_eq_true, and_self, forall_const, if_true]
    exact (run_bind_ok rfl _).trans (run_bind_ok (run_host c.host _ _) _)

theorem affords (passes : c.Passes s) : s.cost + c.m.growCost c.reach ≤ c.m.gas :=
  (Nat.le_add_right _ _).trans passes.pays

/-- The child is given no more than the frame holds, so that the charge for what it used is never refused. -/
theorem given_le (passes : c.Passes s) : c.given s ≤ (c.paid s).gas := by
  refine Nat.add_le_add_right ?_ _
  show (if _ then _ else _) ≤ _
  split
  · exact (Nat.min_le_right _ _).trans (Nat.sub_le _ _)
  · next old => exact passes.asked (by by_contra late; exact old (Revision.not_lt.mp late))

/-- **The charges behind the memory**, and how the call goes on from them. -/
theorem charges_taken (noValue : c.op.hasValueArgs = false → c.value = 0)
    (dynamic : ¬ (c.op = .call ∧ c.value ≠ 0 ∧ c.env.msg.isStaticMode = true))
    (near : c.reach ≤ maxRequiredMemorySize) (grown : s.cost + c.m.growCost c.reach ≤ c.m.gas)
    (quiet : messages s.trace = messages c.m.trace) {finish : Option Nat → Code Unit} {msg : Message}
    (declines : ∀ sent, sent = none ∨ maxStack ≤ c.env.msg.depth → (finish sent).run (Machine.handle c.host)
      { c.paid s with stack := st, returnData := rd } = (.ok (), opened (c.paid s)))
    (sends : c.env.msg.depth < maxStack → c.given s ≤ (c.paid s).gas →
      (finish (some (c.given s))).run (Machine.handle c.host) { c.paid s with stack := st, returnData := rd } =
        delivered c.host (c.paid s) msg (c.done s)) :
    (c.course s msg).Taken c.host c.m.trace ((do
      Handler.chargeCallValue c.env c.op c.dest c.value
      let capped ← Handler.capCallGas c.env c.requested
      let sent ← Handler.addStipend c.env c.op c.value capped
      finish sent : Code Unit).run (Machine.handle c.host)
        ((c.m.grow c.reach).side st rd (c.m.gas - (s.cost + c.m.growCost c.reach)) s.trace)) := by
  have left : c.m.gas - (s.cost + c.m.growCost c.reach) - c.valueCost s.trace = c.m.gas - c.cost s := Nat.sub_sub _ _ _
  refine of_step (run_handlerChargeCallValue noValue) (messages_looked.trans quiet) (fun passes => ?_) fun enough => ?_
  · have pays := passes.pays
    unfold CallSite.cost at pays
    omega
  rw [left]
  refine of_step run_capCallGas (messages_looked.trans quiet) (·.asked) fun asked => ?_
  rw [run_bind_ok (run_addStipend noValue _)]
  have passes : c.Passes s := ⟨dynamic, near, by unfold CallSite.cost; omega, asked⟩
  refine of_taken (messages_inquired.trans quiet) passes (fun poor => declines _ ?_) fun offered => ?_
  · by_cases solvent : c.value ≠ 0 → c.value.toNat ≤ (c.balance s.trace).toNat
    · exact .inr (not_lt.mp fun shallow => poor ⟨shallow, solvent⟩)
    · exact .inl (if_neg solvent)
  · rw [if_pos offered.solvent]
    exact sends offered.shallow (given_le passes)

/-! ## Sending -/

section

variable {host : Host} {m : Machine}

theorem run_pushSuccess {s : Stack} (top : m.stack = s.push 0) (room : s.sp + 1 ≤ maxStack) (status : Status) :
    (when (status = .success) do let _ ← Code.pop 1; Code.push 1).run (Machine.handle host) m =
      (.ok (), { m with stack := s.push (if status = .success then 1 else 0) }) := by
  unfold Code.when
  split
  · exact run_replaceTop top room 1
  · rw [← top]
    rfl

theorem run_bind_charge {n : Nat} (enough : n ≤ m.gas) (f : Unit → Code Unit) :
    (charge n >>= f).run (Machine.handle host) m = (f ()).run (Machine.handle host) { m with gas := m.gas - n } :=
  run_bind_ok ((run_charge_le n m).trans (if_pos enough)) f

theorem run_handlerSendCall (room : m.stack.sp + 1 ≤ maxStack) {msg : Message} (given : msg.gas ≤ m.gas)
    (offset size : Nat) : (Handler.sendCall msg offset size).run (Machine.handle host) (opened m) =
      delivered host m msg (CallSite.afterCall m msg.gas offset size) := by
  unfold Handler.sendCall
  rw [run_bind_ok (run_host host _ _), run_bind_ok (run_pushSuccess rfl room _),
    run_bind_ok (run_setReturnData host _ _), run_bind_ok (run_memoryWrite host _ _ _)]
  exact run_bind_charge (by exact (Nat.sub_le _ _).trans given) _

/-- Compiled code copies output back where there is any, which comes to the same. -/
theorem run_copyBack (offset size : Nat) (output : Bytes) (m : Machine) :
    (when (size > 0 ∧ output.length > 0) (memoryWrite offset (output.take size))).run (Machine.handle host) m =
      (.ok (), { m with memory := overwrite m.memory offset (output.take size) }) := by
  unfold Code.when
  split
  · rfl
  · rename_i none
    have empty : output.take size = [] := by
      rw [List.take_eq_nil_iff]
      rcases Nat.eq_zero_or_pos size with zero | pos
      · exact .inl zero
      · exact .inr (List.length_eq_zero_iff.mp (Nat.eq_zero_of_not_pos fun any => none ⟨pos, any⟩))
    have same : overwrite m.memory offset [] = m.memory := by simp [overwrite]
    rw [empty, same]
    rfl

theorem run_sendCall (room : m.stack.sp + 1 ≤ maxStack) {msg : Message} (given : msg.gas ≤ m.gas)
    (offset size : Nat) : (sendCall msg offset size >>= Code.push).run (Machine.handle host) m =
      delivered host m msg (CallSite.afterCall m msg.gas offset size) := by
  unfold sendCall
  simp only [bind_assoc, pure_bind]
  rw [run_bind_ok (run_host host _ _)]
  refine (run_bind_charge (by exact (Nat.sub_le _ _).trans given) _).trans ?_
  rw [run_bind_ok (run_addRefund host _ _), run_bind_ok (run_copyBack _ _ _ _), run_bind_ok (run_setReturnData host _ _)]
  exact run_push_of_room (by exact room) _

end

/-! ## Both courses -/

theorem accessCost_le (start : c.interpretedStart = s) : c.accessCost ≤ s.cost := by
  rw [← start, CallSite.interpretedStart]
  split <;> simp

theorem grow_side (m : Machine) (reach cost : Nat) : (m.side st rd (m.gas - cost) t).grow reach =
      (m.grow reach).side st rd (m.gas - (cost + m.growCost reach)) t := by
  rw [← Nat.sub_sub]
  rfl

/-- **The interpreter's course.** -/
theorem handler_taken (noValue : c.op.hasValueArgs = false → c.value = 0) (room : c.m.stack.sp + 1 ≤ maxStack)
    (start : c.interpretedStart = s) :
    (c.course s (c.message s)).Taken c.host c.m.trace (c.handler.run (Machine.handle c.host) c.m) := by
  have quiet : messages s.trace = messages c.m.trace := start ▸ messages_interpretedStart
  have part := accessCost_le start
  unfold CallSite.handler Handler.callWith
  rw [run_opening room]
  refine of_step run_chargeAccountAccess messages_accessed (fun passes => ?_) fun access => ?_
  · exact part.trans ((Nat.le_add_right _ _).trans (affords passes))
  refine of_step (run_resolve start) quiet (fun passes => ?_) fun follow => ?_
  · have pays := affords passes
    omega
  rw [Nat.sub_sub, Nat.add_sub_cancel' part]
  refine of_guard (run_fail _ _ _) quiet (·.dynamic) fun static => ?_
  rw [← bind_assoc]
  obtain ⟨e, same, memory⟩ := @run_checkMemory_both c.host _ _ _ _ c.reach rfl
    (c.m.side (c.m.stack.push 0) [] (c.m.gas - s.cost) s.trace)
  refine of_step memory (same ▸ quiet) (fun passes => ⟨passes.near, Nat.le_sub_of_add_le' (affords passes)⟩) fun fine => ?_
  have enough : c.m.growCost c.reach ≤ c.m.gas - s.cost := fine.2
  rw [grow_side]
  refine charges_taken noValue static fine.1 (by omega) quiet ?_ fun shallow given => ?_
  · rintro (_ | g) (none | deep)
    · rfl
    · rfl
    · cases none
    · show (if _ then _ else _ : Code Unit).run _ _ = _
      rw [if_pos deep]
      rfl
  · show (if _ then _ else _ : Code Unit).run _ _ = _
    rw [if_neg (not_le.mpr shallow), run_bind_ok (run_memoryRead c.host _ _ _)]
    exact run_handlerSendCall (m := c.paid s) room given _ _

/-! ### Compiled code -/

/-- The value charge, alike in both, unless the opcode is older than Spurious Dragon's rules. -/
theorem run_chargeCallValue (env : Env) (op : CallOp) (dest : Address) (value : Word)
    (noValue : op.hasValueArgs = false → value = 0)
    (available : op = .staticcall → .spuriousDragon ≤ env.rev) {host : Host} (w : Machine) :
    (chargeCallValue env op.kind dest value).run (Machine.handle host) w =
      (Handler.chargeCallValue env op dest value).run (Machine.handle host) w := by
  cases op with
  | call =>
    unfold chargeCallValue Handler.chargeCallValue Handler.newAccountCost
    by_cases asks : value ≠ 0 ∨ env.rev < .spuriousDragon
    · have both : CallOp.call.kind = .call ∧ (value ≠ 0 ∨ env.rev < .spuriousDragon) := ⟨rfl, asks⟩
      simp only [CallOp.hasValueArgs, if_true, if_pos both, bind_assoc, pure_bind]
      rfl
    · have neither : ¬ (CallOp.call.kind = .call ∧ (value ≠ 0 ∨ env.rev < .spuriousDragon)) :=
        fun both => asks both.2
      simp only [CallOp.hasValueArgs, if_true, if_neg neither, pure_bind, Nat.add_zero]
      rfl
  | callcode =>
    simp [chargeCallValue, Handler.chargeCallValue, Handler.newAccountCost, hasValueArgs,
      CallOp.hasValueArgs, CallOp.kind]
  | delegatecall =>
    simp [chargeCallValue, Handler.chargeCallValue, hasValueArgs, CallOp.hasValueArgs, CallOp.kind]
  | staticcall =>
    have zero := noValue rfl
    have late := Revision.not_lt.mpr (available rfl)
    simp [chargeCallValue, Handler.chargeCallValue, hasValueArgs, CallOp.hasValueArgs, CallOp.kind, zero, late]

theorem addStipend_eq (env : Env) (op : CallOp) (value : Word) (callGas : Nat)
    (noValue : op.hasValueArgs = false → value = 0) :
    addStipend env op.kind value callGas = Handler.addStipend env op value callGas := by
  cases op with
  | staticcall => simp [addStipend, Handler.addStipend, CallOp.hasValueArgs, noValue rfl]
  | _ => rfl

theorem capCallGas_eq (env : Env) (requested : Word) :
    capCallGas env (saturate requested) = Handler.capCallGas env requested := by
  rw [saturate_eq]
  rfl

theorem kind_eq_call_iff {op : CallOp} {value : Word} (noValue : op.hasValueArgs = false → value = 0) {P : Prop} :
    op.kind = .call ∧ value ≠ 0 ∧ P ↔ op = .call ∧ value ≠ 0 ∧ P := by
  cases op with
  | staticcall => simp [noValue rfl]
  | _ => simp [CallOp.kind]

/-- **The course of compiled code.** -/
theorem compiled_taken (noValue : c.op.hasValueArgs = false → c.value = 0)
    (available : c.op = .staticcall → .spuriousDragon ≤ c.env.rev) (room : c.m.stack.sp + 1 ≤ maxStack)
    (start : c.compiledStart = s) :
    (c.course s (c.compiledMessage s)).Taken c.host c.m.trace (c.compiled.run (Machine.handle c.host) c.m) := by
  have quiet : messages s.trace = messages c.m.trace := start ▸ messages_accessed
  unfold CallSite.compiled callWith
  refine of_step (run_normalize _ _ _) rfl (fun passes => fits_of_demanded ((le_max_left _ _).trans passes.near))
    fun input => of_step (run_normalize _ _ _) rfl
      (fun passes => fits_of_demanded ((le_max_right _ _).trans passes.near)) fun output => ?_
  simp only [evmHandleCallInternal, bind_assoc]
  have access : (Handler.chargeAccountAccess c.env c.dest).run (Machine.handle c.host) c.m = if s.cost ≤ c.m.gas
      then (.ok (), c.m.side c.m.stack c.m.returnData (c.m.gas - s.cost) s.trace)
      else (.error (.fail .outOfGas), c.m.side c.m.stack c.m.returnData c.m.gas s.trace) :=
    start ▸ run_chargeAccountAccess
  refine of_step access quiet (fun passes => (Nat.le_add_right _ _).trans (affords passes)) fun access => ?_
  rw [apply_ite (· >>= Code.push)]
  refine of_guard (run_bind_error (run_fail _ _ _) _) quiet
    (fun passes => (kind_eq_call_iff noValue).not.mpr passes.dynamic) fun static => ?_
  rw [bind_assoc]
  refine of_step (run_expandRegions input output _) quiet
    (fun passes => ⟨passes.near, Nat.le_sub_of_add_le' (affords passes)⟩) fun fine => ?_
  have enough : c.m.growCost c.reach ≤ c.m.gas - s.cost := fine.2
  rw [if_neg (by decide), bind_assoc, run_bind, run_chargeCallValue _ _ _ _ noValue available, ← run_bind]
  simp only [bind_assoc, capCallGas_eq, addStipend_eq _ _ _ _ noValue]
  refine grow_side c.m c.reach s.cost ▸ charges_taken noValue ((kind_eq_call_iff noValue).not.mp static) fine.1 (by omega)
    quiet ?_ fun shallow given => ?_
  · have light := @run_lightFailure c.host (c.paid s) room
    rintro (_ | g) (none | deep)
    · exact light
    · exact light
    · cases none
    · show ((if _ then _ else _) >>= Code.push).run _ _ = _
      rw [if_pos deep]
      exact light
  · show ((if _ then _ else _) >>= Code.push).run _ _ = _
    rw [if_neg (not_le.mpr shallow), bind_assoc, run_bind_ok (run_memoryRead c.host _ _ _)]
    exact run_sendCall (m := c.paid s) room given _ _

/-! ## The verdict -/

theorem clears_iff (x d : BitVec 32) : x &&& ~~~d = x ↔ x &&& d = 0 := by
  constructor
  · intro cleared
    rw [← cleared, BitVec.and_assoc, BitVec.and_comm (~~~d), BitVec.and_not_self]
    exact BitVec.and_zero
  · intro none
    ext i hi
    have bit : (x[i] && d[i]) = false := by
      rw [← BitVec.getElem_and, none]
      simp
    rw [BitVec.getElem_and, BitVec.getElem_not]
    cases hx : x[i] <;> simp_all

/-- **The messages.** Compiled code keeps a delegation bit that the interpreter clears. -/
theorem callMessage_eq_iff (env : Env) (op : CallOp) (dest : Address) (gas : Nat) (value : Word) (input : Bytes) :
    Handler.callMessage env op dest dest gas value input =
        callMessage env op.kind (op = .staticcall) dest gas value input ↔
      op = .staticcall ∨ env.msg.flags &&& evmcDelegated = 0 := by
  have flags : Handler.callFlags env op dest dest =
      if op = .staticcall then evmcStatic else env.msg.flags &&& ~~~evmcDelegated := by
    rw [Handler.callFlags, if_neg (not_not_intro rfl), Handler.inheritedFlags]
    split
    · rfl
    · rfl
  unfold Handler.callMessage callMessage
  rw [flags, ← clears_iff]
  cases op with
  | _ => simp [CallOp.kind]

variable {s' : Start} {target : Address}

/-- Following a delegation is paid for, but not with as much as a new account. -/
theorem paid_gas_ne (delegates : c.delegation = some target) (compiled : c.Passes c.compiledStart)
    (interpreted : c.Passes c.interpretedStart) : (c.paid c.interpretedStart).gas ≠ (c.paid c.compiledStart).gas := by
  have value : ∀ t, c.valueCost t = (if c.value ≠ 0 then 9000 else 0) ∨
      c.valueCost t = (if c.value ≠ 0 then 9000 else 0) + 25000 := by
    intro t
    unfold CallSite.valueCost
    by_cases creates : c.looksUp ∧ c.host t (.accountExists c.dest) = false
    · rw [if_pos creates]
      exact .inr rfl
    · rw [if_neg creates]
      exact .inl rfl
  have following : c.delegationCost target = 2600 ∨ c.delegationCost target = 100 := by
    unfold CallSite.delegationCost
    split
    · exact .inl rfl
    · exact .inr rfl
  have more : c.interpretedStart.cost = c.compiledStart.cost + c.delegationCost target := by
    rw [CallSite.interpretedStart, delegates]
    rfl
  have here := compiled.pays
  have there := interpreted.pays
  have left := value c.interpretedStart.trace
  have right := value c.compiledStart.trace
  unfold CallSite.cost at here there
  simp only [CallSite.paid, CallSite.cost]
  omega

theorem prague_of_delegates (delegates : c.delegation = some target) : .prague ≤ c.env.rev := by
  by_contra old
  rw [CallSite.delegation, if_neg old] at delegates
  cases delegates

/-- A target that delegates to itself is accessed twice. -/
theorem indifferent_delegated (ignores : c.host.IgnoresCodeReads) (repeated : c.host.IgnoresRepeatedAccess)
    (delegates : c.delegation = some c.dest) :
    Indifferent c.host c.compiledStart.trace c.interpretedStart.trace := by
  have berlin : .berlin ≤ c.env.rev := Nat.le_trans (by decide) (prague_of_delegates delegates)
  intro x r
  rw [CallSite.interpretedStart, delegates]
  refine (Indifferent.codeRead ignores x r).trans (repeated _ _ (c.host c.m.trace (.accessAccount c.dest)) ?_ x r)
  simp [CallSite.codeRead, CallSite.accessed, Host.asked, berlin]

/-- **Where the target delegates, they agree if they are both refused**, and only then. -/
theorem delegated_matches_iff (delegates : c.delegation = some target)
    (ignores : .prague ≤ c.env.rev → c.host.IgnoresCodeReads)
    (repeated : target = c.dest → c.host.IgnoresRepeatedAccess) (interpreted : c.interpretedStart = s')
    (compiled : c.compiledStart = s) :
    (c.course s' (c.message s')).Matches c.host (c.course s (c.compiledMessage s)) ↔
      ¬ (c.Passes s ∨ c.Passes s') := by
  rw [not_or]
  constructor
  · intro meet
    have both : ¬ c.Passes s' ↔ ¬ c.Passes s := by
      rw [← of_eq_refused_iff, ← of_eq_refused_iff]
      exact meet.refused_iff
    by_contra some
    have p : c.Passes s := by
      by_contra stuck
      exact some ⟨stuck, both.mpr stuck⟩
    have q : c.Passes s' := by
      by_contra stuck
      exact some ⟨both.mp stuck, stuck⟩
    have gas : (c.paid s').gas ≠ (c.paid s).gas := by
      subst interpreted compiled
      exact paid_gas_ne delegates p q
    rw [CallSite.course, CallSite.course, Course.of, Course.of, if_pos p, if_pos q] at meet
    by_cases o : c.Offered s' <;> by_cases o' : c.Offered s
    · rw [if_pos o, if_pos o'] at meet
      obtain ⟨same, after⟩ := meet
      have given : c.given s' = c.given s := congrArg Message.gas same
      have self : s'.code = c.dest := congrArg Message.codeAddress same
      have alike : Indifferent c.host s.trace s'.trace := by
        subst interpreted compiled
        rw [CallSite.interpretedStart, delegates] at self
        exact indifferent_delegated (ignores (prague_of_delegates delegates)) (repeated self) (self ▸ delegates)
      rw [same, show c.host (c.paid s').trace _ = c.host (c.paid s).trace _ from (alike.inquired.answer _).symm] at after
      have left := SameAfter.gas_eq after
      have enough := given_le p
      have enough' := given_le q
      simp only [CallSite.done, CallSite.afterCall] at left
      omega
    · rw [if_pos o, if_neg o'] at meet
      exact meet
    · rw [if_neg o, if_pos o'] at meet
      exact meet
    · rw [if_neg o, if_neg o'] at meet
      have left := SameAfter.gas_eq (show SameAfter (opened _) (opened _) from meet)
      exact gas left
  · intro stuck
    rw [CallSite.course, CallSite.course, of_eq_refused_iff.mpr stuck.1, of_eq_refused_iff.mpr stuck.2]
    trivial

section

variable (noValue : c.op.hasValueArgs = false → c.value = 0)
  (available : c.op = .staticcall → .spuriousDragon ≤ c.env.rev) (room : c.m.stack.sp + 1 ≤ maxStack)
  (ignores : .prague ≤ c.env.rev → c.host.IgnoresCodeReads)

include noValue available room ignores

theorem agree_iff_of_undelegated (undelegated : c.delegation = none) :
    Agree (c.handler.run (Machine.handle c.host) c.m) (c.compiled.run (Machine.handle c.host) c.m) ↔
      (c.Passes c.compiledStart ∧ c.Offered c.compiledStart →
        c.op = .staticcall ∨ c.env.msg.flags &&& evmcDelegated = 0) := by
  have code : c.interpretedStart.code = c.dest := by rw [CallSite.interpretedStart, undelegated]
  have cost : c.compiledStart.cost = c.interpretedStart.cost := by
    rw [CallSite.interpretedStart, undelegated]
    rfl
  have alike : Indifferent c.host c.compiledStart.trace c.interpretedStart.trace := by
    rw [CallSite.interpretedStart, undelegated]
    show Indifferent _ _ (if _ then _ else _)
    split
    · next prague => exact .codeRead (ignores prague)
    · exact fun _ _ => rfl
  rw [(handler_taken noValue room rfl).agree_iff (compiled_taken noValue available room rfl),
    alike.course_matches_iff cost, CallSite.message, code, alike.given_eq cost, CallSite.compiledMessage,
    callMessage_eq_iff]

theorem agree_iff_of_delegated {target : Address} (delegates : c.delegation = some target)
    (repeated : target = c.dest → c.host.IgnoresRepeatedAccess) :
    Agree (c.handler.run (Machine.handle c.host) c.m) (c.compiled.run (Machine.handle c.host) c.m) ↔
      ¬ (c.Passes c.compiledStart ∨ c.Passes c.interpretedStart) :=
  ((handler_taken noValue room rfl).agree_iff (compiled_taken noValue available room rfl)).trans
    (delegated_matches_iff delegates ignores repeated rfl rfl)

end

/-- Both take the same operands. -/
theorem call_agree_iff_of {host : Host} {env : Env} {op : CallOp} {m : Machine} {P : Prop}
    (next : op.operands ≤ m.stack.sp → ∀ c : CallSite,
      c = { CallSite.of host env op m with m := { m with stack := m.stack.drop op.operands } } →
      (Agree (c.handler.run (Machine.handle c.host) c.m) (c.compiled.run (Machine.handle c.host) c.m) ↔ P)) :
    Agree ((Handler.call env op).run (Machine.handle host) m) ((call env op).run (Machine.handle host) m) ↔
      (op.operands ≤ m.stack.sp → P) := by
  cases op with
  | call | callcode => exact operands_agree_iff 7 fun enough => next enough _ rfl
  | delegatecall | staticcall => exact operands_agree_iff 6 fun enough => next enough _ rfl

/-- **Compiled and interpreted calls.** Where the target does not delegate, they agree if the frame has no mark of
delegated code to pass on, or if no message is sent: the call does not pass its checks, or the frame is too deep or
too poor. Where it delegates, they agree if neither side passes its checks: the interpreter pays for what it
follows. -/
theorem call_agrees_iff (host : Host) (env : Env) (op : CallOp) (m : Machine) (bounded : m.stack.sp ≤ maxStack)
    (ignores : .prague ≤ env.rev → host.IgnoresCodeReads) (available : op = .staticcall → .spuriousDragon ≤ env.rev) :
    let c := CallSite.of host env op m
    (c.delegation = none →
      (Agree ((Handler.call env op).run (Machine.handle host) m) ((call env op).run (Machine.handle host) m) ↔
        op = .staticcall ∨ env.msg.flags &&& evmcDelegated = 0 ∨
          ¬ (op.operands ≤ m.stack.sp ∧ c.Passes c.compiledStart ∧ c.Offered c.compiledStart))) ∧
    ∀ target, c.delegation = some target → (target = c.dest → host.IgnoresRepeatedAccess) →
      (Agree ((Handler.call env op).run (Machine.handle host) m) ((call env op).run (Machine.handle host) m) ↔
        ¬ (op.operands ≤ m.stack.sp ∧ (c.Passes c.compiledStart ∨ c.Passes c.interpretedStart))) := by
  intro c
  have passes : ∀ st s, CallSite.Passes { c with m := { m with stack := st } } s ↔ c.Passes s := fun st s =>
    ⟨fun h => ⟨h.dynamic, h.near, h.pays, h.asked⟩, fun h => ⟨h.dynamic, h.near, h.pays, h.asked⟩⟩
  have offered : ∀ st s, CallSite.Offered { c with m := { m with stack := st } } s ↔ c.Offered s := fun st s =>
    ⟨fun h => ⟨h.shallow, h.solvent⟩, fun h => ⟨h.shallow, h.solvent⟩⟩
  have noValue : op.hasValueArgs = false → c.value = 0 := by
    cases op with
    | call | callcode => exact fun lacks => by cases lacks
    | delegatecall | staticcall => exact fun _ => rfl
  have some : 0 < op.operands := by
    unfold CallOp.operands
    split <;> decide
  constructor
  · intro undelegated
    rw [call_agree_iff_of (P := c.Passes c.compiledStart ∧ c.Offered c.compiledStart →
      op = .staticcall ∨ env.msg.flags &&& evmcDelegated = 0)]
    · tauto
    · rintro enough _ rfl
      have room := room_after_pop some enough bounded
      exact (agree_iff_of_undelegated (c := { c with m := { m with stack := m.stack.drop op.operands } }) noValue
        available room ignores undelegated).trans (imp_congr_left (and_congr (passes _ _) (offered _ _)))
  · intro target delegates repeated
    rw [call_agree_iff_of (P := ¬ (c.Passes c.compiledStart ∨ c.Passes c.interpretedStart))]
    · exact not_and.symm
    · rintro enough _ rfl
      have room := room_after_pop some enough bounded
      exact (agree_iff_of_delegated (c := { c with m := { m with stack := m.stack.drop op.operands } }) noValue
        available room ignores delegates repeated).trans (not_congr (or_congr (passes _ _) (passes _ _)))

def plainEnv (rev : Revision) (flags : BitVec 32) : Env :=
  ⟨rev, .bare flags 100000, [], fun _ => 0, 0⟩

def withStack (operands : List Word) : Machine :=
  { Machine.entry 100000 with stack := operands.foldr (fun v s => s.push v) ⟨fun _ => 0, 0⟩ }

def withOperands : Machine := withStack (List.replicate 7 0)

/-- A call of account 4660 with 30000 gas, a value of 5, four bytes of input and room for a word of output. -/
def transferring : Machine := withStack [30000, 4660, 5, 0, 4, 32, 32]

/-- A host where every account is rich, and every message has the same result. -/
def wealthy (result : CallResult) : Host := fun t r => match r with
  | .getBalance _ => (1000000 : Word)
  | .accountExists _ => true
  | .call _ => result
  | r => Host.idle t r

/-- A host where every account delegates to account 1. -/
def delegating : Host := fun t r => match r with
  | .copyCode _ _ _ => [0xef, 0x01, 0x00] ++ List.replicate 19 0 ++ [1]
  | r => Host.idle t r

/-- **Calls that agree**: one with a value, which is sent, and one that a static frame may not make. -/
theorem transfers_agree : Agree
      ((Handler.call (plainEnv .prague 0) .call).run (Machine.handle (wealthy ⟨.success, 700, 0, [42], 0⟩)) transferring)
      ((call (plainEnv .prague 0) .call).run (Machine.handle (wealthy ⟨.success, 700, 0, [42], 0⟩)) transferring) ∧
    (messages ((call (plainEnv .prague 0) .call).run (Machine.handle (wealthy ⟨.success, 700, 0, [42], 0⟩))
      transferring).2.trace).length = 1 ∧ Agree
      ((Handler.call (plainEnv .prague evmcStatic) .call).run (Machine.handle delegating) transferring)
      ((call (plainEnv .prague evmcStatic) .call).run (Machine.handle delegating) transferring) := by
  refine ⟨?_, by decide +kernel, ?_⟩
  · refine ((call_agrees_iff _ _ .call transferring (by decide) (fun _ _ _ r _ => ?_) (by decide)).1
      (by decide +kernel)).mpr (.inr (.inl rfl))
    cases r <;> rfl
  · refine ((call_agrees_iff _ _ .call transferring (by decide) (fun _ _ _ r _ => ?_) (by decide)).2 1
      (by decide +kernel) fun self => absurd self (by decide)).mpr ?_
    · cases r <;> rfl
    · rintro ⟨-, passes | passes⟩
      · exact passes.dynamic (by decide)
      · exact passes.dynamic (by decide)

/-- **Calls that differ**: to an account that delegates, and from a frame that runs delegated code. -/
theorem delegated_calls_differ : ¬ Agree
      ((Handler.call (plainEnv .prague 0) .call).run (Machine.handle delegating) withOperands)
      ((call (plainEnv .prague 0) .call).run (Machine.handle delegating) withOperands) ∧ ¬ Agree
      ((Handler.call (plainEnv .prague evmcDelegated) .call).run (Machine.handle .idle) withOperands)
      ((call (plainEnv .prague evmcDelegated) .call).run (Machine.handle .idle) withOperands) :=
  ⟨fun agree => absurd agree.messages_eq (by decide +kernel),
    fun agree => absurd agree.messages_eq (by decide +kernel)⟩

end Jit

end Dtvm
