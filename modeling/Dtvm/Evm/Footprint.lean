import Dtvm.Evm.Opcode

/-!
# What each opcode may do

One pass over the handlers says which operations each of them can perform, whatever the answers
(`Opcode.exec_within`). An opcode that does not end a gas chunk can only spend gas (`May` with
`terminator = false`); a frame is stopped with a failure status or ended with `success` or `revert`; in static
mode no request to the host changes its state (`HostReq.KeepsState`).

Only the handlers that look at static mode need an argument: past the check the mode is off.
-/

namespace Dtvm

open Effect

/-- A request that leaves the host's state alone, or passes that duty on to a static call. -/
@[reducible] def HostReq.KeepsState : HostReq → Prop
  | .setStorage _ _ _ | .setTransientStorage _ _ _ | .emitLog _ _ _ | .selfdestruct _ _ => False
  | .call m => m.isStaticMode = true ∧ m.kind ≠ .create ∧ m.kind ≠ .create2 ∧
      (m.kind = .call → m.value = 0)
  | _ => True

/-- The operations open to an opcode; `terminator` tells whether it ends a gas chunk. -/
@[reducible] def May (env : Env) (terminator : Bool) : FrameOp → Prop
  | .gas | .credit _ => terminator = true
  | .halt (.fail st) => st.isFailure = true
  | .halt (.finish st) => terminator = true ∧ st.isFailure = false
  | .host r => env.msg.isStaticMode = true → r.KeepsState
  | _ => True

namespace May

open Program Code

variable {env : Env} {t : Bool}

theorem host_of_not_static (off : ¬ env.msg.isStaticMode = true) (r : HostReq) : Within (May env t) (host r) :=
  .perform fun on => absurd on off

end May

namespace Handler

open Program Code

-- The longest handlers take more steps than an instance is given.
set_option synthInstance.maxSize 256

variable {env : Env} {t : Bool}

/-! ## Handlers that can only spend -/

instance (p : Code Unit) [Within (May env t) p] : Within (May env t) (next p) := by
  unfold next; infer_instance

/-! ## Handlers that end a chunk -/

instance : Within (May env t) returnedData := by unfold returnedData; infer_instance

/-! ## Handlers that static mode refuses -/

theorem within_unless_static {p : Code Unit} (h : (∀ r, Within (May env t) (host r)) → Within (May env t) p) :
    Within (May env t) (if env.msg.isStaticMode then fail .staticModeViolation else p) := by
  split
  · infer_instance
  · next off => exact h (May.host_of_not_static off)

instance : Within (May env true) (sstore env) := within_unless_static fun _ => inferInstance

instance : Within (May env t) (tstore env) := within_unless_static fun _ => inferInstance

instance (n : Nat) : Within (May env t) (log env n) := within_unless_static fun _ => inferInstance

instance : Within (May env true) (selfDestruct env) := within_unless_static fun _ => inferInstance

theorem sendCreate_within (off : ¬ env.msg.isStaticMode = true) (op : CreateOp) (v s : Word)
    (input : Bytes) : Within (May env true) (sendCreate env op v s input) := by
  have := fun r => May.host_of_not_static (t := true) off r
  unfold sendCreate; infer_instance

instance (op : CreateOp) (v o n s : Word) : Within (May env true) (createWith env op v o n s) := by
  unfold createWith
  by_cases on : env.msg.isStaticMode = true
  · simp only [on, if_true]
    infer_instance
  · have := fun input => sendCreate_within on op v s input
    exact .after fun _ => .after fun _ => .after fun _ =>
      .ite inferInstance inferInstance

instance (op : CreateOp) : Within (May env true) (create env op) := by
  cases op <;> unfold create <;> infer_instance

/-! ## Calls -/

theorem callFlags_static (on : env.msg.isStaticMode = true) (op : CallOp) (dest code : Address) :
    callFlags env op dest code &&& evmcStatic ≠ 0 := by
  have own : inheritedFlags env op &&& evmcStatic ≠ 0 := by
    unfold inheritedFlags
    split
    · decide
    · simpa [Message.isStaticMode] using on
  have disjoint : evmcDelegated &&& evmcStatic = 0#32 := by decide
  have untouched : ~~~evmcDelegated &&& evmcStatic = evmcStatic := by decide
  unfold callFlags
  split
  · rw [BitVec.and_or_distrib_right, disjoint, BitVec.or_zero]
    exact own
  · rw [BitVec.and_assoc, untouched]
    exact own

theorem callMessage_keepsState (on : env.msg.isStaticMode = true) {op : CallOp} {value : Word}
    (unpaid : ¬ (op = .call ∧ value ≠ 0 ∧ env.msg.isStaticMode = true))
    (novalue : op.hasValueArgs = false → value = 0) (dest code : Address) (g : Nat) (input : Bytes) :
    (HostReq.call (callMessage env op dest code g value input)).KeepsState := by
  refine ⟨?_, ?_, ?_, ?_⟩
  · simpa [Message.isStaticMode, callMessage] using callFlags_static on op dest code
  · cases op <;> simp [callMessage, CallOp.kind]
  · cases op <;> simp [callMessage, CallOp.kind]
  · cases op with
    | call => simpa [callMessage, CallOp.kind, on] using unpaid
    | staticcall => intro _; exact novalue rfl
    | callcode | delegatecall => simp [callMessage, CallOp.kind]

theorem sendCall_within {m : Message} (h : env.msg.isStaticMode = true → (HostReq.call m).KeepsState)
    (o n : Nat) : Within (May env t) (sendCall m o n) := by
  have : Within (May env t) (host (.call m)) := .perform h
  unfold sendCall; infer_instance

theorem callWith_within (op : CallOp) (w : Word) (dest : Address) (value io is oo os : Word)
    (novalue : op.hasValueArgs = false → value = 0) :
    Within (May env true) (callWith env op w dest value io is oo os) := by
  unfold callWith
  refine .after fun _ => .after fun _ => .after fun _ =>
    .after fun _ => .after fun code => ?_
  split
  · infer_instance
  · rename_i unpaid
    refine .after fun _ => .after fun _ => .after fun _ =>
      .after fun _ => .after fun sent => ?_
    cases sent with
    | none => infer_instance
    | some g =>
      refine .ite inferInstance (.after fun input => sendCall_within ?_ _ _)
      exact fun on => callMessage_keepsState on unpaid novalue dest code g input

instance (op : CallOp) : Within (May env true) (call env op) := by
  unfold call
  split
  · rename_i has
    exact .after fun x => callWith_within _ _ _ _ _ _ _ _ fun no => by simp [no] at has
  · exact .after fun x => callWith_within _ _ _ _ _ _ _ _ fun _ => rfl

end Handler

open Program in
/-- **What an opcode may do**: only an opcode that ends a gas chunk looks at the gas, adds to it or
ends the frame, and in static mode no opcode changes the host's state. -/
theorem Opcode.exec_within (env : Env) (maps : DecodeMaps) (o : Opcode) :
    Within (May env o.isGasChunkTerminator) (o.exec env maps) := by
  cases o <;> unfold Opcode.exec Opcode.isGasChunkTerminator <;> infer_instance

end Dtvm
