import Dtvm.Evm.Interpreter
import Dtvm.Evm.Footprint

/-!
# Static mode is contained

A frame whose message is static sends its host no request that changes state, on either path of
the interpreter and for as long as it runs: no storage write, log, self-destruction or creation,
no plain call with value, and only static calls. With the host's own duty for the calls it
receives, this is what a static call promises.

The loop performs what its opcodes perform (`Setup.interpret_within`), so the invariant is one
about single operations: only `FrameOp.host` adds to the trace, and in static mode it adds a
request that keeps the host's state.
-/

namespace Dtvm

open Effect Program

theorem May.of_terminator {env : Env} {t : Bool} (o : FrameOp) (h : May env t o) : May env true o := by
  cases o with
  | gas | credit => rfl
  | host => exact h
  | halt e =>
    cases e with
    | finish st => exact ⟨rfl, h.2⟩
    | fail st => exact h
  | _ => trivial

theorem Setup.carries_within (s : Setup) : s.Carries fun p => Within (May s.env true) p where
  exec o := (o.exec_within s.env s.cache.maps).mono May.of_terminator
  bind := .bind

theorem Setup.interpret_within (s : Setup) (rounds : Nat) : Within (May s.env true) (s.interpret rounds) :=
  s.carries_within.interpret rounds

/-- The calls made since `before`, if the trace has only grown. -/
def CallsSince (before : List HostEvent) (ok : HostReq → Prop) (m : Machine) : Prop :=
  ∃ made, m.trace = before ++ made ∧ ∀ e ∈ made, ok e.req

theorem Machine.handle_callsSince {env : Env} (on : env.msg.isStaticMode = true) (host : Host)
    (before : List HostEvent) (o : FrameOp) (m : Machine) (may : May env true o)
    (h : CallsSince before HostReq.KeepsState m) :
    CallsSince before HostReq.KeepsState (Machine.handle host o m).2 := by
  cases o with
  | host r =>
    obtain ⟨made, eq, ok⟩ := h
    refine ⟨made ++ [⟨r, host m.trace r⟩], by simp [Machine.handle, eq], fun e he => ?_⟩
    rcases List.mem_append.mp he with he | he
    · exact ok e he
    · rw [List.mem_singleton.mp he]
      exact may on
  | need | pop | room | push | dup | swap | charge =>
    simp only [Machine.handle]
    split <;> exact h
  | _ => exact h

/-- **Static-mode containment**: for any code, tables, gas and host, and however long the run, the
requests a static frame makes of its host keep the host's state. -/
theorem interpret_static_contained (host : Host) (s : Setup) (m : Machine)
    (on : s.env.msg.isStaticMode = true) (rounds : Nat) : CallsSince m.trace HostReq.KeepsState
      ((s.interpret rounds).run (Machine.handle host) m).2 :=
  run_preserves (Machine.handle_callsSince on host m.trace) (s.interpret_within rounds)
    ⟨[], by simp, by simp⟩

/-! A static frame that asks for a storage write. -/

def InstructionTables.free : InstructionTables where
  gasCost _ _ := 0
  defined rev b := b != 0x5f || decide (.shanghai ≤ rev)
  stop_free _ := rfl
  cost_nonneg _ _ _ := le_rfl
  push0_shanghai _ h := by simpa using h

/-- A host whose accounts are empty and whose calls succeed with nothing. -/
def Host.idle : Host := fun _ r => match r with
  | .accountExists _ => false
  | .getStorage _ _ | .getBalance _ | .getCodeHash _ | .getBlockHash _
  | .getTransientStorage _ _ => (0 : Word)
  | .setStorage _ _ _ => .assigned
  | .getCodeSize _ => (0 : Nat)
  | .copyCode _ _ _ => ([] : Bytes)
  | .selfdestruct _ _ => false
  | .call _ => ⟨.success, 0, 0, [], 0⟩
  | .getTxContext => .zero
  | .emitLog _ _ _ | .setTransientStorage _ _ _ => ()
  | .accessAccount _ | .accessStorage _ _ => .warm

def Message.bare (flags : BitVec 32) (gas : Nat) : Message :=
  ⟨.call, flags, 0, gas, 0, 0, [], 0, 0, 0⟩

def Machine.entry (gas : Nat) : Machine :=
  { stack := ⟨fun _ => 0, 0⟩, memory := [], gas := gas, pc := 0, mtx := .zero, returnData := [],
    refund := 0, trace := [] }

/-- `PUSH1 1, PUSH1 0, SSTORE` in a static frame. -/
def staticStore : Setup :=
  .load .free .cancun ⟨.cancun, .bare evmcStatic 100000, [], fun _ => 0, 0⟩
    ⟨[0x60, 1, 0x60, 0, 0x55], by decide⟩

theorem staticStore_contained : staticStore.env.msg.isStaticMode = true ∧ CallsSince [] HostReq.KeepsState
      ((staticStore.interpret 4).run (Machine.handle .idle) (.entry 100000)).2 :=
  ⟨rfl, interpret_static_contained .idle staticStore (.entry 100000) rfl 4⟩

end Dtvm
