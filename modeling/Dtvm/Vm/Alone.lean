import Dtvm.Vm.Entry

/-!
# An interpreted call and what it reads

An interpreted call reads its context, its instance and its module (`View`). Two views are alike if they differ
only in the words that earlier calls left above the stack pointer and in where they are kept; no operation can
tell alike machines apart (`Machine.handle_alike`).

A call made alone on a freshly created VM (`Request.onFresh`) is the standard of comparison: from a system that has
only this call running, with an alike view (`Twin`), a step leads to another such system, and the end of the call
to the same result.
-/

namespace Dtvm

namespace Machine

/-- The machines differ only in the words above the stack pointer. -/
structure Alike (m w : Machine) : Prop where
  sp : m.stack.sp = w.stack.sp
  live : ∀ i < m.stack.sp, m.stack.slots i = w.stack.slots i
  rest : { m with stack := w.stack } = w

variable {m w : Machine}

section

variable (h : m.Alike w)

include h

theorem Alike.withTrace (trace : List HostEvent) :
    { m with trace := trace }.Alike { w with trace := trace } :=
  ⟨h.sp, h.live, by rw [← h.rest]⟩

theorem Alike.peek {k : Nat} (lt : k < m.stack.sp) : m.stack.peek k = w.stack.peek k := by
  rw [Stack.peek, Stack.peek, ← h.sp]
  exact h.live _ (by omega)

theorem Alike.withStack {s t : Stack} (sp : s.sp = t.sp) (live : ∀ i < s.sp, s.slots i = t.slots i) :
    { m with stack := s }.Alike { w with stack := t } :=
  ⟨sp, live, by rw [← h.rest]⟩

theorem Alike.push (v : Word) :
    { m with stack := m.stack.push v }.Alike { w with stack := w.stack.push v } := by
  refine h.withStack (by simp [Stack.push, h.sp]) fun i lt => ?_
  simp only [Stack.push] at lt ⊢
  rw [← h.sp]
  split
  · rfl
  · exact h.live i (by omega)

theorem Alike.drop (n : Nat) : { m with stack := m.stack.drop n }.Alike { w with stack := w.stack.drop n } :=
  h.withStack (by simp [Stack.drop, h.sp]) fun i lt => h.live i (by
    simp only [Stack.drop] at lt
    omega)

theorem Alike.poke (k : Nat) (v : Word) :
    { m with stack := m.stack.poke k v }.Alike { w with stack := w.stack.poke k v } := by
  refine h.withStack h.sp fun i lt => ?_
  simp only [Stack.poke, ← h.sp]
  split
  · rfl
  · exact h.live i lt

end

/-- **No operation tells alike machines apart.** -/
theorem handle_alike (host : Host) (o : FrameOp) (h : m.Alike w) :
    (handle host o m).1 = (handle host o w).1 ∧ (handle host o m).2.Alike (handle host o w).2 := by
  cases o with
  | need n | room =>
    simp only [handle, ← h.sp]
    split <;> exact ⟨rfl, h⟩
  | pop n =>
    simp only [handle, ← h.sp]
    split
    · exact ⟨rfl, h⟩
    · rename_i enough
      exact ⟨congrArg Except.ok (funext fun k => h.peek (by have := k.isLt; omega)), h.drop n⟩
  | push v =>
    simp only [handle, ← h.sp]
    split
    · exact ⟨rfl, h⟩
    · exact ⟨rfl, h.push v⟩
  | dup k =>
    simp only [handle, ← h.sp]
    split
    · exact ⟨rfl, h⟩
    · rename_i enough
      rw [h.peek (show k < m.stack.sp by omega)]
      exact ⟨rfl, h.push _⟩
  | swap n =>
    simp only [handle, ← h.sp]
    split
    · exact ⟨rfl, h⟩
    · rename_i enough
      rw [h.peek (show n < m.stack.sp by omega), h.peek (show 0 < m.stack.sp by omega)]
      exact ⟨rfl, (h.poke 0 _).poke n _⟩
  | charge n =>
    obtain ⟨sp, live, rest⟩ := h
    cases w
    cases rest
    simp only [handle]
    split
    · exact ⟨rfl, sp, live, rfl⟩
    · exact ⟨rfl, sp, live, rfl⟩
  | _ =>
    obtain ⟨sp, live, rest⟩ := h
    cases w
    cases rest
    exact ⟨rfl, sp, live, rfl⟩

end Machine

theorem exeResult_alike {m w : Machine} (alike : m.Alike w) (snapshot : Int) (h : Halt) :
    exeResult snapshot m h = exeResult snapshot w h := by
  rw [← alike.rest]
  cases h <;> rfl

def Host.Gives (host : Host) (trace : List HostEvent) : Prop :=
  ∀ before e after, trace = before ++ e :: after → host before e.req = e.ans

variable {e : HostEvent} {host : Host} {trace : List HostEvent} (h : host.Gives (trace ++ [e]))

include h

theorem Host.Gives.init : host.Gives trace := by
  rintro before e' after rfl
  exact h before e' (after ++ [e]) (by simp)

theorem Host.Gives.last : host trace e.req = e.ans :=
  h trace e [] (by simp)

end Dtvm

namespace Dtvm.Vm

open Effect

/-! ## What a call reads -/

structure View where
  ctx : Context
  inst : Instance
  module : Module

namespace View

def machine (v : View) (trace : List HostEvent) : Machine :=
  { stack := v.ctx.stack, memory := v.ctx.memory, gas := v.ctx.gas, pc := v.ctx.pc, mtx := v.ctx.mtx,
    returnData := v.ctx.returnData, refund := v.inst.refund, trace := trace }

def setup (cfg : Config) (v : View) : Setup :=
  { tables := cfg.tables
    env := ⟨v.inst.rev, v.ctx.msg, v.module.code.bytes, cfg.keccak, v.ctx.refundSnapshot⟩
    cache := buildBytecodeCache cfg.tables v.module.rev v.module.code }

def put (v : View) (m : Machine) : View :=
  { v with
    ctx := { v.ctx with
      gas := m.gas, stack := m.stack, memory := m.memory, pc := m.pc, mtx := m.mtx
      returnData := m.returnData }
    inst := { v.inst with refund := m.refund } }

/-- The views differ only in the words above the stack pointer and in where they are kept. -/
structure Alike (v w : View) : Prop where
  machine : (v.machine []).Alike (w.machine [])
  msg : v.ctx.msg = w.ctx.msg
  snapshot : v.ctx.refundSnapshot = w.ctx.refundSnapshot
  rev : v.inst.rev = w.inst.rev
  module : v.module = w.module

variable {v w : View}

theorem Alike.setup (h : v.Alike w) (cfg : Config) : v.setup cfg = w.setup cfg := by
  simp [View.setup, h.msg, h.snapshot, h.rev, h.module]

theorem Alike.run (h : v.Alike w) (trace : List HostEvent) :
    (v.machine trace).Alike (w.machine trace) := h.machine.withTrace trace

theorem Alike.put (h : v.Alike w) {m m' : Machine} (alike : m.Alike m') : (v.put m).Alike (w.put m') :=
  ⟨alike.withTrace [], h.msg, h.snapshot, h.rev, h.module⟩

end View

namespace State

variable {vm vm' : State} {slot slot' : CtxSlot} {v : View}

def view (vm : State) (slot : CtxSlot) : Option View := do
  let ctx ← vm.ctx? slot
  let inst ← vm.inst? ctx.inst
  let m ← vm.modules.loaded inst.mod
  pure ⟨ctx, inst, m⟩

theorem view_eq_some_iff : vm.view slot = some v ↔ vm.ctx? slot = some v.ctx ∧
    vm.inst? v.ctx.inst = some v.inst ∧ vm.modules.loaded v.inst.mod = some v.module := by
  simp only [view, Option.bind_eq_bind, Option.bind_eq_some_iff, Option.pure_def, Option.some.injEq]
  constructor
  · rintro ⟨ctx, hctx, inst, hinst, m, hm, rfl⟩
    exact ⟨hctx, hinst, hm⟩
  · rintro ⟨hctx, hinst, hm⟩
    exact ⟨_, hctx, _, hinst, _, hm, rfl⟩

section

variable (h : vm.view slot = some v)

include h

theorem machine_of_view (trace : List HostEvent) : vm.machine slot trace = some (v.machine trace) := by
  obtain ⟨ctx, inst, -⟩ := view_eq_some_iff.mp h
  simp [machine, ctx, inst, View.machine]

theorem setup_of_view (cfg : Config) : vm.setup cfg slot = some (v.setup cfg) := by
  obtain ⟨ctx, inst, m⟩ := view_eq_some_iff.mp h
  simp [setup, ctx, inst, m, View.setup]

theorem snapshot_of_view : ((vm.ctx? slot).map (·.refundSnapshot)).getD 0 = v.ctx.refundSnapshot := by
  simp [(view_eq_some_iff.mp h).1]

theorem view_congr (ctx : vm'.ctx? slot = vm.ctx? slot) (inst : vm'.inst? v.ctx.inst = vm.inst? v.ctx.inst)
    (loaded : vm'.modules.loaded v.inst.mod = some v.module) : vm'.view slot = some v := by
  obtain ⟨hctx, hinst, -⟩ := view_eq_some_iff.mp h
  exact view_eq_some_iff.mpr ⟨ctx.trans hctx, inst.trans hinst, loaded⟩

/-! A machine written back changes one context and one instance. -/

omit h in
theorem ctx?_setCtx_self (vm : State) (slot : CtxSlot) (ctx : Context) : (vm.setCtx slot ctx).ctx? slot = some ctx := by
  cases slot <;> simp [setCtx, ctx?]

omit h in
theorem ctx?_setCtx_ne (ne : slot' ≠ slot) (ctx : Context) : (vm.setCtx slot ctx).ctx? slot' = vm.ctx? slot' := by
  cases slot with
  | cached =>
    cases slot' with
    | cached => exact absurd rfl ne
    | nested d => rfl
  | nested d =>
    cases slot' with
    | cached => rfl
    | nested d' => exact if_neg fun same => ne (by rw [same])

omit h in
theorem inst?_setCtx (vm : State) (slot : CtxSlot) (ctx : Context) (s : InstSlot) :
    (vm.setCtx slot ctx).inst? s = vm.inst? s := by
  cases slot <;> cases s <;> rfl

theorem store_of_view (m : Machine) :
    vm.store slot m = (vm.setCtx slot (v.put m).ctx).setInst v.ctx.inst (v.put m).inst := by
  obtain ⟨ctx, inst, -⟩ := view_eq_some_iff.mp h
  simp [store, ctx, inst, View.put]

theorem view_store (m : Machine) : (vm.store slot m).view slot = some (v.put m) := by
  obtain ⟨ctx, inst, loaded⟩ := view_eq_some_iff.mp h
  rw [view_eq_some_iff, (sameMods_store vm slot m).1, store_of_view h]
  refine ⟨?_, ?_, loaded⟩
  · rw [ctx?_setInst, ctx?_setCtx_self]
  · exact inst?_setInst_self ((inst?_setCtx _ _ _ _).trans inst)

theorem ctx?_store_ne (m : Machine) (ne : slot' ≠ slot) : (vm.store slot m).ctx? slot' = vm.ctx? slot' := by
  rw [store_of_view h, ctx?_setInst, ctx?_setCtx_ne ne]

theorem inst?_store_ne (m : Machine) {s : InstSlot} (ne : s ≠ v.ctx.inst) : (vm.store slot m).inst? s = vm.inst? s := by
  rw [store_of_view h, inst?_setInst_ne ne, inst?_setCtx]

end

theorem resource_store (vm : State) (slot : CtxSlot) (m : Machine) : (vm.store slot m).resource = vm.resource := by
  unfold store
  split
  · rfl
  · rename_i ctx _
    split
    · cases slot <;> rfl
    · cases slot <;> cases ctx.inst <;> rfl

theorem view_answered (vm : State) (slot slot' : CtxSlot) (r : HostReq) :
    (vm.answered slot r).view slot' = vm.view slot' := by
  cases r <;> rfl

/-- After an answer the call's own context is set: again, if the answer was to a message. -/
theorem resource_answered (r : HostReq) (own : (∀ msg, r ≠ .call msg) → vm.resource = some slot) :
    (vm.answered slot r).resource = some slot := by
  cases r with
  | call msg => rfl
  | _ => exact own fun _ => nofun

end State

/-! ## A call alone -/

namespace Sys

variable {cfg : Config} {host : Host}

/-- The next event if no call is started: the host answers, or the innermost call takes a step. -/
def next (host : Host) (σ : Sys) : Event :=
  match σ.running with
  | [] => .run
  | a :: _ =>
    match a.body with
    | .interp _ (.step (.host r) _) trace => .answer ⟨r, host trace r⟩
    | _ => .run

def alone (cfg : Config) (host : Host) : Nat → Sys → Option Sys
  | 0, σ => some σ
  | n + 1, σ => (alone cfg host n σ).bind fun σ' => σ'.step cfg (σ'.next host)

end Sys

def Request.onFresh (cfg : Config) (host : Host) (n : Nat) (req : Request) : Option Sys :=
  ((system cfg).step (system cfg).init (.enter .interp req true)).bind (Sys.alone cfg host n)

theorem Request.onFresh_succ {cfg : Config} {host : Host} {n : Nat} {req : Request} {σ : Sys}
    (h : req.onFresh cfg host n = some σ) : req.onFresh cfg host (n + 1) = σ.step cfg (σ.next host) := by
  obtain ⟨start, entered, steps⟩ := Option.bind_eq_some_iff.mp h
  simp [onFresh, entered, Sys.alone, steps]

/-- The system has only this call running, at a point of its run where it reads a view that is
alike. -/
structure Twin (req : Request) (rest : Code Unit) (trace : List HostEvent) (v : View) (σ : Sys) :
    Prop where
  running : ∃ a : Activity, σ.running = [a] ∧ a.req = req ∧
    a.body = .interp (State.ctxSlot req) rest trace
  returned : σ.returned = []
  resource : σ.vm.resource = some (State.ctxSlot req)
  view : ∃ w, σ.vm.view (State.ctxSlot req) = some w ∧ v.Alike w

namespace Sys

variable {cfg : Config} {σ : Sys} {a : Activity} {outer : List Activity} {slot : CtxSlot}
  {trace : List HostEvent} {v : View}

/-! What an elementary step of a call is, in terms of its view. -/

section

variable (view : σ.vm.view slot = some v)

include view

theorem runInterp_done (u : Unit) : σ.runInterp cfg a outer slot trace (.done u) = some { σ with
      running := { a with body := .interp slot (v.setup cfg).turn trace } :: outer } := by
  simp [runInterp, State.setup_of_view view]

theorem runInterp_ok {o : FrameOp} {next : o.Ans → Code Unit} {ans : o.Ans} {m : Machine}
    (resource : σ.vm.resource = some slot)
    (own : ∀ r, o ≠ .host r) (handled : Machine.handle .idle o (v.machine trace) = (.ok ans, m)) :
    σ.runInterp cfg a outer slot trace (.step o next) = some { σ with
      vm := σ.vm.store slot m
      running := { a with body := .interp slot (next ans) trace } :: outer } := by
  cases o with
  | host r => exact absurd rfl (own r)
  | _ => simp [runInterp, resource, State.machine_of_view view, handled]

theorem runInterp_error {o : FrameOp} {next : o.Ans → Code Unit} {h : Halt} {m : Machine}
    (resource : σ.vm.resource = some slot)
    (own : ∀ r, o ≠ .host r) (handled : Machine.handle .idle o (v.machine trace) = (.error h, m)) :
    σ.runInterp cfg a outer slot trace (.step o next) = some (σ.finish a outer slot m h) := by
  cases o with
  | host r => exact absurd rfl (own r)
  | _ => simp [runInterp, resource, State.machine_of_view view, handled]

end

theorem takeAnswer_host (r : HostReq) (next : r.Ans → Code Unit) (ans : r.Ans) :
    σ.takeAnswer a outer slot trace ⟨r, ans⟩ (.step (.host r) next) = some { σ with
      vm := σ.vm.answered slot r
      running := { a with body := .interp slot (next ans) (trace ++ [⟨r, ans⟩]) } :: outer } := by
  simp [takeAnswer]

end Sys

namespace Twin

variable {σ : Sys} {req : Request} {rest : Code Unit} {trace : List HostEvent} {v : View}

theorem step_eq (cfg : Config) (host : Host) (t : Twin req rest trace v σ)
    (own : ∀ r k, rest ≠ .step (.host r) k) : ∃ a : Activity, σ.running = [a] ∧ a.req = req ∧
      σ.step cfg (σ.next host) = σ.runInterp cfg a [] (State.ctxSlot req) trace rest := by
  obtain ⟨a, running, asked, body⟩ := t.running
  refine ⟨a, running, asked, ?_⟩
  have run : σ.next host = .run := by
    simp only [Sys.next, running, body]
    split
    · rename_i same
      cases same
      exact absurd rfl (own _ _)
    · rfl
  simp only [run, Sys.step, running, body]

theorem turn (cfg : Config) (host : Host) (t : Twin req (.done ()) trace v σ) :
    ∃ σ', σ.step cfg (σ.next host) = some σ' ∧ Twin req (v.setup cfg).turn trace v σ' := by
  obtain ⟨a, running, asked, step⟩ := t.step_eq cfg host fun _ _ => nofun
  obtain ⟨w, view, alike⟩ := t.view
  refine ⟨_, step.trans (Sys.runInterp_done view ()), ⟨_, rfl, asked, ?_⟩, t.returned, t.resource, w, view, alike⟩
  rw [alike.setup]

section Own

variable {o : FrameOp} {next : o.Ans → Code Unit} {m : Machine} (cfg : Config) (host : Host)
  (t : Twin req (.step o next) trace v σ) (own : ∀ r, o ≠ .host r)
include t own

/-- The twin handles an operation of its own alike. -/
theorem handles {x : Except Halt o.Ans} (handled : Machine.handle .idle o (v.machine trace) = (x, m)) :
    ∃ a w m', a.req = req ∧
      σ.step cfg (σ.next host) = σ.runInterp cfg a [] (State.ctxSlot req) trace (.step o next) ∧
      σ.vm.view (State.ctxSlot req) = some w ∧ v.Alike w ∧
      Machine.handle .idle o (w.machine trace) = (x, m') ∧ m.Alike m' := by
  obtain ⟨a, running, asked, step⟩ := t.step_eq cfg host fun r _ same => by
    cases same
    exact own r rfl
  obtain ⟨w, view, alike⟩ := t.view
  obtain ⟨answer, after⟩ := Machine.handle_alike .idle o (alike.run trace)
  rw [handled] at answer after
  exact ⟨a, w, (Machine.handle .idle o (w.machine trace)).2, asked, step, view, alike, Prod.ext answer.symm rfl, after⟩

theorem ok {ans : o.Ans} (handled : Machine.handle .idle o (v.machine trace) = (.ok ans, m)) :
    ∃ σ', σ.step cfg (σ.next host) = some σ' ∧ Twin req (next ans) trace (v.put m) σ' := by
  obtain ⟨a, w, m', asked, step, view, alike, twin, after⟩ := t.handles cfg host own handled
  exact ⟨_, step.trans (Sys.runInterp_ok view t.resource own twin), ⟨_, rfl, asked, rfl⟩,
    t.returned, (State.resource_store _ _ _).trans t.resource, _, State.view_store view _, alike.put after⟩

theorem error {h : Halt} (handled : Machine.handle .idle o (v.machine trace) = (.error h, m)) :
    ∃ σ', σ.step cfg (σ.next host) = some σ' ∧ σ'.running = [] ∧
      σ'.returned = [⟨req, exeResult v.ctx.refundSnapshot m h, m.trace⟩] := by
  obtain ⟨a, w, m', asked, step, view, alike, twin, after⟩ := t.handles cfg host own handled
  refine ⟨_, step.trans (Sys.runInterp_error view t.resource own twin), rfl, ?_⟩
  simp only [Sys.finish, t.returned, asked, State.snapshot_of_view view, alike.snapshot, exeResult_alike after]
  rw [← after.rest]

end Own

theorem answer (cfg : Config) {host : Host} {r : HostReq} {next : r.Ans → Code Unit} {ans : r.Ans}
    (t : Twin req (.step (.host r) next) trace v σ) (given : host trace r = ans) :
    ∃ σ', σ.step cfg (σ.next host) = some σ' ∧ Twin req (next ans) (trace ++ [⟨r, ans⟩]) v σ' := by
  obtain ⟨a, running, asked, body⟩ := t.running
  obtain ⟨w, view, alike⟩ := t.view
  subst given
  have step : σ.step cfg (σ.next host) =
      σ.takeAnswer a [] (State.ctxSlot req) trace ⟨r, host trace r⟩ (.step (.host r) next) := by
    simp only [Sys.next, Sys.step, running, body]
  exact ⟨_, step.trans (Sys.takeAnswer_host r next _), ⟨_, rfl, asked, rfl⟩, t.returned,
    State.resource_answered r fun _ => t.resource, w,
    (State.view_answered _ _ _ _).trans view, alike⟩

end Twin

/-! ## The start of a call -/

/-- What a call reads when it starts: leftovers are only in the stack's slots. -/
def View.opened (req : Request) (rev : Revision) (m : Module) (slots : Nat → Word) (inst : InstSlot)
    (id : ModId) : View where
  ctx := { inst := inst, msg := req.msg, gas := req.msg.gas, stack := ⟨slots, 0⟩, memory := [],
           pc := 0, mtx := .zero, refundSnapshot := 0, returnData := [] }
  inst := ⟨id, rev, req.msg.gas, 0⟩
  module := m

theorem View.opened_alike (req : Request) (rev : Revision) (m : Module) (slots slots' : Nat → Word)
    (inst inst' : InstSlot) (id id' : ModId) :
    (View.opened req rev m slots inst id).Alike (View.opened req rev m slots' inst' id') :=
  ⟨⟨rfl, nofun, rfl⟩, rfl, rfl, rfl, rfl⟩

/-- A call has been started in its context and instance, and everything else is as before. -/
structure Opens (loads : Bool) (req : Request) (vm vm' : State) (a : Activity) : Prop where
  asked : a.req = req
  body : a.body = .interp (State.ctxSlot req) (.done ()) []
  resource : vm'.resource = some (State.ctxSlot req)
  found : (vm.find loads req).1 = some a.mod
  modules : vm'.modules = (vm.find loads req).2.modules
  view : ∀ m, vm'.modules.loaded a.mod = some m → ∃ slots, vm'.view (State.ctxSlot req) =
    some (.opened req (vm.revisionOf req.rev req.msg.depth) m slots a.inst a.mod)
  ctxs : ∀ slot, slot ≠ State.ctxSlot req → vm'.ctx? slot = vm.ctx? slot
  insts : ∀ slot, slot ≠ a.inst → vm'.inst? slot = vm.inst? slot

namespace State

variable {vm vm' : State} {loads : Bool} {req : Request} {a : Activity}

theorem pushMessage_of_inst {inst : Instance} {slot : InstSlot} (there : vm.inst? slot = some inst)
    (msg : Message) : vm.pushMessage slot msg = vm.setInst slot { inst with gas := msg.gas } := by
  simp [pushMessage, there]

theorem openCtx_spec (vm : State) (slot : CtxSlot) (inst : InstSlot) (msg : Message) (refund : Int) :
    (∃ slots, (vm.openCtx slot inst msg refund).ctx? slot = some
      { inst := inst, msg := msg, gas := msg.gas, stack := ⟨slots, 0⟩, memory := [], pc := 0,
        mtx := .zero, refundSnapshot := refund, returnData := [] }) ∧
    (∀ s, s ≠ slot → (vm.openCtx slot inst msg refund).ctx? s = vm.ctx? s) ∧
    ∀ s, (vm.openCtx slot inst msg refund).inst? s = vm.inst? s :=
  ⟨⟨_, ctx?_setCtx_self vm slot _⟩, fun _ ne => ctx?_setCtx_ne ne _, inst?_setCtx vm slot _⟩

theorem find_frame {r : Option ModId} (found : vm.find loads req = (r, vm')) :
    (∀ slot, vm'.ctx? slot = vm.ctx? slot) ∧ (∀ slot, vm'.inst? slot = vm.inst? slot) ∧
      vm'.main = vm.main ∧ vm'.resource = vm.resource := by
  cases found
  exact ⟨fun s => by cases s <;> rfl, fun s => by cases s <;> rfl, rfl, rfl⟩

theorem enterInterp_opens (h : vm.enterInterp loads req [] = (some a, vm')) : Opens loads req vm vm' a := by
  unfold enterInterp at h
  cases found : vm.find loads req with
  | mk r vm₁ =>
    obtain ⟨ctxs₁, insts₁, main, -⟩ := find_frame found
    cases r with
    | none => simp [found] at h
    | some id =>
      cases got : vm₁.getOrCreateInstance id req.rev req.msg.depth with
      | mk inst vm₂ =>
        obtain ⟨⟨modules, ctxs⟩, given, others, -, -⟩ := getOrCreateInstance_spec vm₁ id req.rev req.msg.depth got
        simp only [found, got, pushMessage_of_inst given] at h
        obtain ⟨entered, rfl⟩ := Prod.mk.inj h
        cases entered
        have pushed : (vm₂.setInst inst
            ⟨id, vm₁.revisionOf req.rev req.msg.depth, req.msg.gas, 0⟩).inst? inst = some
              ⟨id, vm₁.revisionOf req.rev req.msg.depth, req.msg.gas, 0⟩ := inst?_setInst_self given
        simp only [pushed]
        obtain ⟨⟨slots, own⟩, ctxs', insts⟩ := openCtx_spec (vm₂.setInst inst
          ⟨id, vm₁.revisionOf req.rev req.msg.depth, req.msg.gas, 0⟩) (ctxSlot req) inst req.msg 0
        have revision : vm₁.revisionOf req.rev req.msg.depth =
            vm.revisionOf req.rev req.msg.depth := by rw [revisionOf, revisionOf, main]
        refine ⟨rfl, rfl, rfl, by rw [found], ?_, fun m loaded => ⟨slots, ?_⟩,
          fun slot ne => ?_, fun slot ne => ?_⟩
        · rw [found]
          exact (sameMods_openCtx _ _ _ _ _).1.trans ((modules_setInst _).trans modules)
        · rw [← revision]
          exact view_eq_some_iff.mpr ⟨own, (insts _).trans pushed, loaded⟩
        · exact (ctxs' slot ne).trans ((ctx?_setInst _ _ _ _).trans
            ((ctxs slot).trans (ctxs₁ slot)))
        · exact (insts slot).trans ((inst?_setInst_ne ne _).trans
            ((others slot ne).trans (insts₁ slot)))

theorem enterInterp_fails (h : vm.enterInterp loads req [] = (none, vm')) :
    (∀ slot, vm'.ctx? slot = vm.ctx? slot) ∧ (∀ slot, vm'.inst? slot = vm.inst? slot) ∧ vm'.resource = vm.resource := by
  unfold enterInterp at h
  rcases found : vm.find loads req with ⟨_ | id, vm₁⟩
  · obtain ⟨ctxs, insts, -, resource⟩ := find_frame found
    simp only [found] at h
    cases h
    exact ⟨ctxs, insts, resource⟩
  · simp [found] at h

theorem find_fresh (req : Request) : (fresh.find true req).1 = some 0 ∧
    (fresh.find true req).2.modules.loaded 0 = some ⟨req.code, req.rev⟩ := by
  by_cases cacheable : req.cacheable = true <;>
    simp [find, fresh, Modules.findModuleCached, Modules.loadCached, Modules.load,
      Modules.evictLoop, Modules.empty, cacheable]

end State

/-- On a fresh VM a call starts, and reads what it reads elsewhere if that has the revision and the
code of the call. -/
theorem Request.onFresh_zero (cfg : Config) (host : Host) (req : Request) (slots : Nat → Word)
    (inst : InstSlot) (id : ModId) : ∃ σ, req.onFresh cfg host 0 = some σ ∧ Twin req (.done ()) [] (.opened req
      (State.fresh.revisionOf req.rev req.msg.depth) ⟨req.code, req.rev⟩ slots inst id) σ := by
  obtain ⟨found, loaded⟩ := State.find_fresh req
  cases entered : State.fresh.enterInterp true req [] with
  | mk r vm =>
    cases r with
    | none =>
      rcases lookup : State.fresh.find true req with ⟨_ | id, vm₁⟩
      · simp [lookup] at found
      · simp [State.enterInterp, lookup] at entered
    | some a =>
      have opens := State.enterInterp_opens entered
      have zero : a.mod = 0 := Option.some.inj (opens.found.symm.trans found)
      obtain ⟨slots', view⟩ := opens.view ⟨req.code, req.rev⟩ (by rw [opens.modules, zero, loaded])
      refine ⟨⟨vm, [a], []⟩, ?_, ⟨a, rfl, opens.asked, opens.body⟩, rfl, opens.resource, _, view,
        View.opened_alike _ _ _ _ _ _ _ _ _⟩
      simp [onFresh, system, Sys.step, Sys.mayEnter, State.enter, entered, Sys.alone]

end Dtvm.Vm
