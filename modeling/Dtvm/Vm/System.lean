import Dtvm.Vm.Modules
import Dtvm.Evm.Static
import Dtvm.Effect.System

/-!
# One VM and the calls running on it

A `DTVM` object as a system: its modules, its pools of instances and execution contexts, and the calls that are
running, innermost first. An event starts a call (`execute()`), takes one elementary step of the innermost one,
answers its request to the host, or ends it. A host starts calls while the innermost call waits for the answer to
a message it has sent; each has a greater depth than the one it is nested in.

The interpreter's work is kept in the pools: a step reads the frame of the context that `EVMResource` points at
and writes it back, and the counters of that context's instance. What the pools leave to a later call is what the
source leaves: the words of the frame's stack array, and every field that a reset does not write.

Native code is represented by what it can do to the VM: change its instance's counters, let its host start calls,
and end.
-/

namespace Dtvm.Vm

open Effect

/-- `CachedMainInst` or a place in `CacheInsts`. -/
inductive InstSlot where
  | main
  | nested (i : Nat)
deriving DecidableEq

/-- `CachedCtx` or a place in `NestedCtxPool`. -/
inductive CtxSlot where
  | cached
  | nested (depth : Nat)
deriving DecidableEq

/-- `EVMInstance`: its module, revision, gas and refund counter. -/
structure Instance where
  mod : ModId
  rev : Revision
  gas : Nat
  refund : Int

/-- `InterpreterExecContext` with its one frame. -/
structure Context where
  inst : InstSlot
  msg : Message
  gas : Nat
  stack : Stack
  memory : Bytes
  pc : Nat
  mtx : TxContext
  refundSnapshot : Int
  returnData : Bytes

/-- `DTVM`. `resource` is the context of `EVMResource`. -/
structure State where
  modules : Modules
  main : Option Instance
  insts : List Instance
  cachedCtx : Option Context
  nestedCtx : Nat → Option Context
  resource : Option CtxSlot

/-- What the machine code around the VM is built with: the instruction tables, the hash function
and `ShouldFallbackToInterp` for a code. -/
structure Config where
  tables : InstructionTables
  keccak : Bytes → Word
  fallback : Bytes → Bool

namespace State

variable (vm : State)

/-- A freshly created `DTVM`. -/
def fresh : State := ⟨.empty, none, [], none, fun _ => none, none⟩

def inst? : InstSlot → Option Instance
  | .main => vm.main
  | .nested i => vm.insts[i]?

def setInst (slot : InstSlot) (inst : Instance) : State :=
  match slot with
  | .main => { vm with main := some inst }
  | .nested i => { vm with insts := vm.insts.set i inst }

def ctx? : CtxSlot → Option Context
  | .cached => vm.cachedCtx
  | .nested d => vm.nestedCtx d

def setCtx (slot : CtxSlot) (ctx : Context) : State :=
  match slot with
  | .cached => { vm with cachedCtx := some ctx }
  | .nested d => { vm with nestedCtx := fun i => if i = d then some ctx else vm.nestedCtx i }

def isModuleInUse (id : ModId) : Bool :=
  vm.main.any (·.mod = id) || vm.insts.any (·.mod = id)

/-- `getOrCreateInstance`. A main instance that is created keeps `DEFAULT_REVISION`. -/
def getOrCreateInstance (id : ModId) (rev : Revision) (depth : Nat) : InstSlot × State :=
  if depth > 0 then
    if vm.insts.length < depth then
      (.nested vm.insts.length, { vm with insts := vm.insts ++ [⟨id, rev, 0, 0⟩] })
    else (.nested (depth - 1), vm.setInst (.nested (depth - 1)) ⟨id, rev, 0, 0⟩)
  else
    match vm.main with
    | none => (.main, vm.setInst .main ⟨id, .default, 0, 0⟩)
    | some inst =>
      if inst.mod ≠ id then (.main, vm.setInst .main ⟨id, rev, 0, 0⟩)
      else (.main, vm.setInst .main { inst with rev := rev, gas := 0, refund := 0 })

/-- The context of a call: `CachedCtx` for a cacheable call at depth 0. -/
def ctxSlot (req : Request) : CtxSlot :=
  if req.cacheable ∧ req.msg.depth = 0 then .cached else .nested req.msg.depth

/-- `InterpreterExecContext::resetForNewCall` and `allocTopFrame` on a context that may have been
used before: the stack array keeps its words. -/
def openCtx (slot : CtxSlot) (inst : InstSlot) (msg : Message) (refund : Int) : State :=
  let slots := match vm.ctx? slot with
    | some old => old.stack.slots
    | none => fun _ => 0
  { vm.setCtx slot
      { inst := inst, msg := msg, gas := msg.gas, stack := ⟨slots, 0⟩, memory := [], pc := 0,
        mtx := .zero, refundSnapshot := refund, returnData := [] } with resource := some slot }

def machine (slot : CtxSlot) (trace : List HostEvent) : Option Machine := do
  let ctx ← vm.ctx? slot
  let inst ← vm.inst? ctx.inst
  pure { stack := ctx.stack, memory := ctx.memory, gas := ctx.gas, pc := ctx.pc, mtx := ctx.mtx,
         returnData := ctx.returnData, refund := inst.refund, trace := trace }

def store (slot : CtxSlot) (m : Machine) : State :=
  match vm.ctx? slot with
  | none => vm
  | some ctx =>
    let vm' := vm.setCtx slot { ctx with
      gas := m.gas, stack := m.stack, memory := m.memory, pc := m.pc, mtx := m.mtx
      returnData := m.returnData }
    match vm.inst? ctx.inst with
    | none => vm'
    | some inst => vm'.setInst ctx.inst { inst with refund := m.refund }

/-- What a round of the interpreter reads of its context, instance and module. -/
def setup (cfg : Config) (slot : CtxSlot) : Option Setup := do
  let ctx ← vm.ctx? slot
  let inst ← vm.inst? ctx.inst
  let m ← vm.modules.loaded inst.mod
  pure { tables := cfg.tables
         env := ⟨inst.rev, ctx.msg, m.code.bytes, cfg.keccak, ctx.refundSnapshot⟩
         cache := buildBytecodeCache cfg.tables m.rev m.code }

end State

/-! ## Running calls -/

/-- What a running call is doing: native code, or the rest of the interpreter's current turn in a
context, with the host calls it has made. -/
inductive Body where
  | native
  | interp (slot : CtxSlot) (rest : Code Unit) (trace : List HostEvent)

/-- A running call. `guards` are the modules that its `ModuleGuard`s unload at its end. -/
structure Activity where
  req : Request
  mod : ModId
  inst : InstSlot
  guards : List ModId
  body : Body

/-- The call waits for the answer to a message, so its host may start calls. Native code is in a
call to its host whenever that happens. -/
def Activity.waiting (a : Activity) : Bool :=
  match a.body with
  | .native => true
  | .interp _ (.step (.host (.call _)) _) _ => true
  | .interp _ _ _ => false

structure Return where
  req : Request
  result : ExeResult
  trace : List HostEvent

/-- `RunMode` of the VM when a call is started. -/
inductive Mode where
  | interp
  | multipass
deriving DecidableEq

def Request.emptyCall (r : Request) : Bool := r.code.bytes.length == 0 && r.msg.kind == .call

def isLikelyPrecompile (a : Address) : Bool := 1 ≤ a.toNat && a.toNat ≤ 9

namespace State

variable (vm : State)

def find (loads : Bool) (req : Request) : Option ModId × State :=
  let found := vm.modules.findModuleCached vm.isModuleInUse loads req
  (found.1, { vm with modules := found.2 })

/-- The modules a call has to unload in the end: its own, if it was loaded for this call only. -/
def guardOf (req : Request) (id : ModId) : List ModId := if req.cacheable then [] else [id]

/-- `pushMessage`, as far as it shows: the instance's gas. -/
def pushMessage (slot : InstSlot) (msg : Message) : State :=
  match vm.inst? slot with
  | some inst => vm.setInst slot { inst with gas := msg.gas }
  | none => vm

/-- `executeInterpreterFastPath` up to `interpret()`. No activity: the call has failed. -/
def enterInterp (loads : Bool) (req : Request) (guards : List ModId) : Option Activity × State :=
  match vm.find loads req with
  | (none, vm) => (none, { vm with modules := vm.modules.unloadAll guards })
  | (some id, vm) =>
    let (inst, vm) := vm.getOrCreateInstance id req.rev req.msg.depth
    let vm := vm.pushMessage inst req.msg
    let refund := ((vm.inst? inst).map (·.refund)).getD 0
    let slot := ctxSlot req
    (some ⟨req, id, inst, guardOf req id ++ guards, .interp slot (pure ()) []⟩,
      vm.openCtx slot inst req.msg refund)

/-- `executeMultipassFastPath` up to the native code. No activity: the call is over. -/
def enterMultipass (cfg : Config) (loads : Bool) (req : Request) : Option Activity × State :=
  if req.msg.depth = 0 ∧ req.emptyCall ∧ isLikelyPrecompile req.msg.recipient = false then
    (none, vm)
  else if req.msg.depth > 0 ∧ req.emptyCall then vm.enterInterp loads req []
  else match vm.find loads req with
    | (none, vm) => (none, vm)
    | (some id, vm) =>
      if (vm.modules.loaded id).any fun m => cfg.fallback m.code.bytes then
        vm.enterInterp loads req (guardOf req id)
      else
        let (inst, vm) := vm.getOrCreateInstance id req.rev req.msg.depth
        (some ⟨req, id, inst, guardOf req id, .native⟩, vm.pushMessage inst req.msg)

/-- The host has answered a request: after a message the context is set again (`setResource`). -/
def answered (slot : CtxSlot) : HostReq → State
  | .call _ => { vm with resource := some slot }
  | _ => vm

/-- `execute()` up to the point where the call's code runs. -/
def enter (cfg : Config) (mode : Mode) (loads : Bool) (req : Request) :
    Option Activity × State :=
  match mode with
  | .interp => vm.enterInterp loads req []
  | .multipass => vm.enterMultipass cfg loads req

end State

/-! ## The system -/

/-- The VM, the running calls from the innermost out, and what calls have returned. -/
structure Sys where
  vm : State
  running : List Activity
  returned : List Return

inductive Event where
  /-- `execute()` is called; `loads` tells whether a module can be loaded if one has to be. -/
  | enter (mode : Mode) (req : Request) (loads : Bool)
  /-- The interpreter takes one elementary step, or begins a turn. -/
  | run
  /-- The host answers. -/
  | answer (e : HostEvent)
  /-- Native code changes its instance's counters. -/
  | native (gas : Nat) (refund : Int)
  /-- Native code ends. -/
  | leave

namespace Sys

variable (σ : Sys)

/-- A call can be started: there is none, or the innermost one waits and is less deep. -/
def mayEnter (req : Request) : Bool :=
  match σ.running with
  | [] => true
  | a :: _ => a.waiting && decide (a.req.msg.depth < req.msg.depth)

/-- The end of an interpreted call: `handleExecutionStatus` or the end of the frame, and the
`ModuleGuard`s. -/
def finish (a : Activity) (outer : List Activity) (slot : CtxSlot) (m : Machine) (h : Halt) : Sys :=
  let snapshot := ((σ.vm.ctx? slot).map (·.refundSnapshot)).getD 0
  let r := exeResult snapshot m h
  let vm := σ.vm.store slot
    { m with gas := r.gasLeft, refund := r.refund, returnData := r.output }
  { vm := { vm with modules := vm.modules.unloadAll a.guards }
    running := outer
    returned := ⟨a.req, r, m.trace⟩ :: σ.returned }

def runInterp (cfg : Config) (a : Activity) (outer : List Activity) (slot : CtxSlot)
    (trace : List HostEvent) : Code Unit → Option Sys
  | .done _ => do
    let s ← σ.vm.setup cfg slot
    pure { σ with running := { a with body := .interp slot s.turn trace } :: outer }
  | .step (.host _) _ => none
  | .step o next => do
    let here ← σ.vm.resource
    let m ← σ.vm.machine here trace
    match Machine.handle .idle o m with
    | (.ok ans, m') =>
      pure { σ with
        vm := σ.vm.store here m'
        running := { a with body := .interp slot (next ans) trace } :: outer }
    | (.error h, m') => pure (σ.finish a outer here m' h)

def takeAnswer (a : Activity) (outer : List Activity) (slot : CtxSlot) (trace : List HostEvent)
    (e : HostEvent) : Code Unit → Option Sys
  | .step (.host r) next =>
    if same : e.req = r then
      some { σ with
        vm := σ.vm.answered slot r
        running := { a with body := .interp slot (next (same ▸ e.ans)) (trace ++ [e]) } :: outer }
    else none
  | _ => none

def step (cfg : Config) (σ : Sys) : Event → Option Sys
  | .enter mode req loads =>
    if σ.mayEnter req then
      let (entered, vm) := σ.vm.enter cfg mode loads req
      some { σ with vm := vm, running := entered.toList ++ σ.running }
    else none
  | .run =>
    match σ.running with
    | [] => none
    | a :: outer =>
      match a.body with
      | .native => none
      | .interp slot rest trace => σ.runInterp cfg a outer slot trace rest
  | .answer e =>
    match σ.running with
    | [] => none
    | a :: outer =>
      match a.body with
      | .native => none
      | .interp slot rest trace => σ.takeAnswer a outer slot trace e rest
  | .native gas refund =>
    match σ.running with
    | [] => none
    | a :: _ =>
      match a.body, σ.vm.inst? a.inst with
      | .native, some inst =>
        some { σ with vm := σ.vm.setInst a.inst { inst with gas := gas, refund := refund } }
      | _, _ => none
  | .leave =>
    match σ.running with
    | [] => none
    | a :: outer =>
      match a.body with
      | .interp _ _ _ => none
      | .native =>
        some { σ with
          vm := { σ.vm with modules := σ.vm.modules.unloadAll a.guards }, running := outer }

end Sys

def system (cfg : Config) : System Sys Event := ⟨⟨.fresh, [], []⟩, Sys.step cfg⟩

end Dtvm.Vm
