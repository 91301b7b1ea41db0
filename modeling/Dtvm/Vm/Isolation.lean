import Dtvm.Vm.Alone
import Dtvm.Vm.Running

/-!
# A call on a used VM and on a fresh one

Instances, contexts and the frames in them are reused without being zeroed. Here an interpreted call of a history
is compared, step by step, with the same call made alone on a freshly created VM whose host gives the same answers.

A call of a history returns what it returns on a fresh VM (`isolated`), with two conditions on the history beside
the one that the module found holds the message's code. One is that of `history_keeps_running_iff`. The other is
about revisions: the main instance keeps the default revision and not the call's, so a call at depth 0 under
another revision behaves differently on a VM that has been used (`fresh_vm_ignores_revision`).
-/

namespace Dtvm.Vm

open Effect

/-! ## Calls of a history against calls alone -/

/-- The same call on a fresh VM, whose host gives the answers of these host calls, comes to the same
point. -/
def Mirrored (cfg : Config) (req : Request) (rest : Code Unit) (trace : List HostEvent) (v : View) :
    Prop :=
  ∀ host : Host, host.Gives trace → ∃ n σ, req.onFresh cfg host n = some σ ∧
    Twin req rest trace v σ

/-- The same call on a fresh VM, whose host gives the same answers, returns the same. -/
def Reproduced (cfg : Config) (ret : Return) : Prop :=
  ∀ host : Host, host.Gives ret.trace → ∃ n σ, ret.req.onFresh cfg host n = some σ ∧
    σ.running = [] ∧ σ.returned = [ret]

namespace Mirrored

variable {cfg : Config} {req : Request} {trace : List HostEvent} {v : View}

theorem extend {rest : Code Unit} {host : Host} (h : Mirrored cfg req rest trace v)
    (gives : host.Gives trace) {after : Sys → Prop}
    (step : ∀ σ, Twin req rest trace v σ → ∃ σ', σ.step cfg (σ.next host) = some σ' ∧ after σ') :
    ∃ n σ, req.onFresh cfg host n = some σ ∧ after σ := by
  obtain ⟨n, σ, reached, twin⟩ := h host gives
  obtain ⟨σ', next, holds⟩ := step σ twin
  exact ⟨n + 1, σ', (Request.onFresh_succ reached).trans next, holds⟩

theorem start (cfg : Config) (req : Request) (slots : Nat → Word) (inst : InstSlot) (id : ModId) :
    Mirrored cfg req (.done ()) [] (.opened req (State.fresh.revisionOf req.rev req.msg.depth)
      ⟨req.code, req.rev⟩ slots inst id) :=
  fun host _ => ⟨0, Request.onFresh_zero cfg host req slots inst id⟩

theorem turn (h : Mirrored cfg req (.done ()) trace v) : Mirrored cfg req (v.setup cfg).turn trace v :=
  fun host gives => h.extend gives fun _ twin => twin.turn cfg host

section Own

variable {o : FrameOp} {next : o.Ans → Code Unit} {m : Machine}

theorem ok {ans : o.Ans} (h : Mirrored cfg req (.step o next) trace v) (own : ∀ r, o ≠ .host r)
    (handled : Machine.handle .idle o (v.machine trace) = (.ok ans, m)) : Mirrored cfg req (next ans) trace (v.put m) :=
  fun host gives => h.extend gives fun _ twin => twin.ok cfg host own handled

theorem error {halt : Halt} (h : Mirrored cfg req (.step o next) trace v) (own : ∀ r, o ≠ .host r)
    (handled : Machine.handle .idle o (v.machine trace) = (.error halt, m)) :
    Reproduced cfg ⟨req, exeResult v.ctx.refundSnapshot m halt, m.trace⟩ := by
  intro host gives
  have traced : m.trace = trace := by
    have := Machine.handle_trace .idle own (v.machine trace)
    rwa [handled] at this
  exact h.extend (traced ▸ gives) fun _ twin => twin.error cfg host own handled

end Own

theorem answer {r : HostReq} {next : r.Ans → Code Unit} (ans : r.Ans)
    (h : Mirrored cfg req (.step (.host r) next) trace v) : Mirrored cfg req (next ans) (trace ++ [⟨r, ans⟩]) v :=
  fun _ gives => h.extend gives.init fun _ twin => twin.answer cfg gives.last

end Mirrored

/-- The call is interpreted, its view is in place, and it is where the same call would be on a fresh
VM. -/
structure Follows (cfg : Config) (vm : State) (a : Activity) (rest : Code Unit)
    (trace : List HostEvent) (v : View) : Prop where
  body : a.body = .interp (State.ctxSlot a.req) rest trace
  view : vm.view (State.ctxSlot a.req) = some v
  inst : v.ctx.inst = a.inst
  mod : v.inst.mod = a.mod
  mirrored : Mirrored cfg a.req rest trace v

theorem Follows.frame {cfg : Config} {vm vm' : State} {a : Activity} {rest : Code Unit}
    {trace : List HostEvent} {v : View} (h : Follows cfg vm a rest trace v)
    (ctx : vm'.ctx? (State.ctxSlot a.req) = vm.ctx? (State.ctxSlot a.req)) (inst : vm'.inst? a.inst = vm.inst? a.inst)
    (loaded : ∀ m, vm.modules.loaded a.mod = some m → vm'.modules.loaded a.mod = some m) :
    Follows cfg vm' a rest trace v := by
  refine ⟨h.body, State.view_congr h.view ctx (h.inst ▸ inst) ?_, h.inst, h.mod, h.mirrored⟩
  rw [h.mod]
  exact loaded _ (h.mod ▸ (State.view_eq_some_iff.mp h.view).2.2)

namespace Sys

/-- What holds of interpreted calls in a history without interference. -/
structure Iso (cfg : Config) (σ : Sys) : Prop extends σ.Inv where
  follows : ∀ a ∈ σ.running, ∃ rest trace v, Follows cfg σ.vm a rest trace v
  resource : ∀ a outer, σ.running = a :: outer → a.waiting = false →
    σ.vm.resource = some (State.ctxSlot a.req)
  waiting : ∀ a outer, σ.running = a :: outer → ∀ b ∈ outer, b.waiting = true
  returned : ∀ ret ∈ σ.returned, Reproduced cfg ret

variable {cfg : Config} {σ σ' : Sys} {a a' : Activity} {outer : List Activity}

theorem ctxSlot_ne {req req' : Request} (deeper : req.msg.depth < req'.msg.depth) :
    State.ctxSlot req ≠ State.ctxSlot req' := by
  have nested : State.ctxSlot req' = .nested req'.msg.depth :=
    if_neg fun top => (Nat.zero_le _).not_gt (top.2 ▸ deeper)
  rw [nested, State.ctxSlot]
  split
  · exact CtxSlot.noConfusion
  · exact fun same => deeper.ne (CtxSlot.nested.inj same)

theorem Base.beside (base : σ.Base) (running : σ.running = a :: outer) :
    ∀ b ∈ outer, State.ctxSlot b.req ≠ State.ctxSlot a.req ∧ b.inst ≠ a.inst := by
  intro b mem
  have under := (List.pairwise_cons.mp (running ▸ base.nested)).1 b mem
  exact ⟨ctxSlot_ne under.depth, under.inst⟩

variable (iso : σ.Iso cfg)

include iso

/-- The innermost call takes a step of its own and leaves alone what the others have. -/
theorem Iso.works (inv : σ'.Inv) (before : σ.running = a :: outer)
    (after : σ'.running = a' :: outer) (returned : σ'.returned = σ.returned)
    (own : ∃ rest trace v, Follows cfg σ'.vm a' rest trace v)
    (others : ∀ b ∈ outer, σ'.vm.ctx? (State.ctxSlot b.req) = σ.vm.ctx? (State.ctxSlot b.req) ∧
      σ'.vm.inst? b.inst = σ.vm.inst? b.inst) (modules : σ'.vm.modules = σ.vm.modules)
    (resource : a'.waiting = false → σ'.vm.resource = some (State.ctxSlot a'.req)) : σ'.Iso cfg := by
  refine ⟨inv, fun b mem => ?_, fun b rest running => ?_, fun b rest running => ?_,
    returned ▸ iso.returned⟩
  · rw [after] at mem
    rcases List.mem_cons.mp mem with rfl | mem
    · exact own
    · obtain ⟨rest, trace, v, follows⟩ := iso.follows b (by simp [before, mem])
      exact ⟨rest, trace, v, follows.frame (others b mem).1 (others b mem).2
        fun m loaded => by rwa [modules]⟩
  · obtain ⟨rfl, -⟩ := List.cons.inj (after.symm.trans running)
    exact resource
  · obtain ⟨-, rfl⟩ := List.cons.inj (after.symm.trans running)
    exact iso.waiting a _ before

theorem Iso.ends (inv : σ'.Inv) (before : σ.running = a :: outer)
    (after : σ'.running = outer) {ret : Return} (returned : σ'.returned = ret :: σ.returned)
    (reproduced : Reproduced cfg ret)
    (others : ∀ b ∈ outer, σ'.vm.ctx? (State.ctxSlot b.req) = σ.vm.ctx? (State.ctxSlot b.req) ∧
      σ'.vm.inst? b.inst = σ.vm.inst? b.inst)
    (modules : σ'.vm.modules = σ.vm.modules.unloadAll a.guards) : σ'.Iso cfg := by
  have waits := iso.waiting a outer before
  have apart := (List.pairwise_cons.mp (before ▸ iso.apart)).1
  obtain ⟨-, keeps⟩ := Modules.unloadAll_spec iso.modules fun id mem =>
    (iso.guards a (by simp [before]) id mem).2.2
  refine ⟨inv, fun b mem => ?_, fun b rest running still => ?_, fun b rest running c mem => ?_, ?_⟩
  · rw [after] at mem
    obtain ⟨rest, trace, v, follows⟩ := iso.follows b (by simp [before, mem])
    refine ⟨rest, trace, v, follows.frame (others b mem).1 (others b mem).2 fun m loaded => ?_⟩
    rw [modules]
    exact keeps.loaded (apart b mem).keepsOuter loaded
  · -- the next call in line waits for the answer to its message
    simp [waits b (by simp [← after, running])] at still
  · exact waits c (by simp [← after, running, mem])
  · rw [returned]
    exact List.forall_mem_cons.mpr ⟨reproduced, iso.returned⟩

omit iso in
theorem waiting_eq_false {o : FrameOp} {next : o.Ans → Code Unit} {slot : CtxSlot}
    {trace : List HostEvent} (body : a.body = .interp slot (.step o next) trace)
    (own : ∀ r, o ≠ .host r) : a.waiting = false := by
  cases o with
  | host r => exact absurd rfl (own r)
  | _ => simp [Activity.waiting, body]

/-- What the others have stays when the innermost call's machine is written back. -/
theorem Iso.stored (running : σ.running = a :: outer) {v : View}
    (view : σ.vm.view (State.ctxSlot a.req) = some v) (inst : v.ctx.inst = a.inst) (m : Machine) :
    ∀ b ∈ outer, (σ.vm.store (State.ctxSlot a.req) m).ctx? (State.ctxSlot b.req) = σ.vm.ctx? (State.ctxSlot b.req) ∧
      (σ.vm.store (State.ctxSlot a.req) m).inst? b.inst = σ.vm.inst? b.inst := by
  intro b mem
  obtain ⟨slot, ne⟩ := iso.beside running b mem
  exact ⟨State.ctx?_store_ne view m slot, State.inst?_store_ne view m (inst ▸ ne)⟩

theorem Iso.run (inv : σ'.Inv) (h : σ.step cfg .run = some σ') : σ'.Iso cfg := by
  cases running : σ.running with
  | nil => simp [Sys.step, running] at h
  | cons a outer =>
    obtain ⟨rest, trace, v, body, view, inst, mod, mirrored⟩ := iso.follows a (by simp [running])
    simp only [Sys.step, running, body] at h
    cases rest with
    | done u =>
      rw [runInterp_done view] at h
      cases h
      refine iso.works inv running rfl rfl ⟨_, trace, v, rfl, view, inst, mod, mirrored.turn⟩
        (fun b mem => ⟨rfl, rfl⟩) rfl fun _ => ?_
      exact iso.resource a outer running (by simp [Activity.waiting, body])
    | step o next =>
      by_cases own : ∀ r, o ≠ .host r
      · have resource := iso.resource a outer running (waiting_eq_false body own)
        cases handled : Machine.handle .idle o (v.machine trace) with
        | mk r m =>
          cases r with
          | ok ans =>
            rw [runInterp_ok view resource own handled] at h
            cases h
            exact iso.works inv running rfl rfl
              ⟨_, trace, v.put m, rfl, State.view_store view m, inst, mod, mirrored.ok own handled⟩
              (iso.stored running view inst m) (State.sameMods_store _ _ _).1
              fun _ => (State.resource_store _ _ _).trans resource
          | error halt =>
            rw [runInterp_error view resource own handled] at h
            cases h
            have ended := mirrored.error own handled
            rw [← State.snapshot_of_view view] at ended
            refine iso.ends inv running rfl rfl ended (fun b mem => ?_) ?_
            · exact iso.stored running view inst _ b mem
            · exact congrArg (Modules.unloadAll a.guards) (State.sameMods_store _ _ _).1
      · obtain ⟨r, rfl⟩ := not_forall_not.mp own
        cases h

theorem Iso.answer (inv : σ'.Inv) {e : HostEvent} (h : σ.step cfg (.answer e) = some σ') : σ'.Iso cfg := by
  cases running : σ.running with
  | nil => simp [Sys.step, running] at h
  | cons a outer =>
    obtain ⟨rest, trace, v, body, view, inst, mod, mirrored⟩ := iso.follows a (by simp [running])
    simp only [Sys.step, running, body] at h
    unfold takeAnswer at h
    split at h
    · rename_i r next
      split at h
      · rename_i same
        obtain ⟨r', ans⟩ := e
        cases same
        cases h
        refine iso.works inv running rfl rfl ⟨_, _, v, rfl, ?_, inst, mod, mirrored.answer ans⟩
          (fun b mem => ?_) (State.sameMods_answered _ _ _).1 fun _ => ?_
        · exact (State.view_answered _ _ _ _).trans view
        · cases r' <;> exact ⟨rfl, rfl⟩
        · refine State.resource_answered r' fun other => iso.resource a outer running ?_
          cases r' with
          | call msg => exact absurd rfl (other msg)
          | _ => simp [Activity.waiting, body]
      · cases h
    · cases h

/-- What is assumed of the calls: they are made in interpreter mode, and the module found for one
holds its code. -/
def Assumed (σ : Sys) : Event → Prop
  | .enter mode req loads => mode = .interp ∧ ∀ id m, (σ.vm.find loads req).1 = some id →
      (σ.vm.find loads req).2.modules.loaded id = some m → m.code.bytes = req.code.bytes
  | _ => True

/-- A call agrees in code with the running calls for its address and revision and, at depth 0 on a
VM whose main instance exists, has the default revision. -/
def Undisturbed (σ : Sys) : Event → Prop
  | .enter _ req _ => σ.mayEnter req = true → σ.Agrees req ∧
      (req.msg.depth = 0 → σ.vm.main.isSome = true → req.rev = .default)
  | _ => True

omit iso in
theorem Undisturbed.agrees {e : Event} (h : σ.Undisturbed e) : σ.Matches e := by
  cases e with
  | enter mode req loads => exact fun may => (h may).1
  | _ => trivial

omit iso in
theorem revisionOf_eq_fresh {vm : State} {req : Request}
    (h : req.msg.depth = 0 → vm.main.isSome = true → req.rev = .default) :
    vm.revisionOf req.rev req.msg.depth = State.fresh.revisionOf req.rev req.msg.depth := by
  by_cases top : req.msg.depth = 0
  · cases main : vm.main with
    | none => simp [State.revisionOf, State.fresh, main]
    | some inst => simp [State.revisionOf, State.fresh, main, top, h top (by simp [main])]
  · simp [State.revisionOf, top]

theorem Iso.waits {req : Request} (may : σ.mayEnter req = true) : ∀ b ∈ σ.running, b.waiting = true := by
  cases running : σ.running with
  | nil => simp
  | cons a outer =>
    simp only [mayEnter, running, Bool.and_eq_true] at may
    exact List.forall_mem_cons.mpr ⟨may.1, iso.waiting a outer running⟩

theorem Iso.enter (inv : σ'.Inv) {mode : Mode} {req : Request} {loads : Bool}
    (assumed : σ.Assumed (.enter mode req loads)) (undisturbed : σ.Undisturbed (.enter mode req loads))
    (h : σ.step cfg (.enter mode req loads) = some σ') : σ'.Iso cfg := by
  obtain ⟨rfl, holds⟩ := assumed
  obtain ⟨enters, returned⟩ := step_enter_iff.mp h
  obtain ⟨agrees, revision⟩ := undisturbed enters.may
  obtain ⟨may, vm, running⟩ := enters
  have starts : State.Starts σ.vm.modules.modCounter req σ.vm (σ.vm.enter cfg .interp loads req) :=
    State.enter_starts cfg .interp loads iso.modules
  cases entered : σ.vm.enter cfg .interp loads req with
  | mk r vm' =>
    simp only [entered] at vm running starts
    subst vm
    -- the running calls keep their contexts, instances and modules
    have goesOn : ∀ a ∈ σ.running,
        σ'.vm.ctx? (State.ctxSlot a.req) = σ.vm.ctx? (State.ctxSlot a.req) →
        σ'.vm.inst? a.inst = σ.vm.inst? a.inst →
        ∃ rest trace v, Follows cfg σ'.vm a rest trace v := by
      intro a mem ctx inst
      obtain ⟨rest, trace, v, follows⟩ := iso.follows a mem
      exact ⟨rest, trace, v, follows.frame ctx inst fun m =>
        starts.keeps.loaded (iso.kept agrees mem)⟩
    cases r with
    | none =>
      obtain ⟨ctxs, insts, resource⟩ := State.enterInterp_fails entered
      rw [Option.toList_none, List.nil_append] at running
      refine ⟨inv, fun a mem => ?_, ?_, ?_, returned ▸ iso.returned⟩
      · exact goesOn a (running ▸ mem) (ctxs _) (insts _)
      · rw [running, resource]
        exact iso.resource
      · rw [running]
        exact iso.waiting
    | some b =>
      have opens := State.enterInterp_opens entered
      have new := starts.entered b rfl
      obtain ⟨⟨code, rev⟩, loaded, rfl, -⟩ := new.code
      cases Bytecode.ext (holds b.mod _ opens.found (opens.modules ▸ loaded))
      obtain ⟨slots, view⟩ := opens.view _ loaded
      rw [revisionOf_eq_fresh revision] at view
      have start : Follows cfg σ'.vm b (.done ()) [] _ :=
        ⟨opens.asked ▸ opens.body, opens.asked ▸ view, rfl, rfl,
          opens.asked ▸ Mirrored.start cfg req slots b.inst b.mod⟩
      refine ⟨inv, fun a mem => ?_, fun a outer top _ => ?_, fun a outer top => ?_,
        returned ▸ iso.returned⟩
      · rw [running] at mem
        rcases List.mem_cons.mp mem with rfl | mem
        · exact ⟨_, _, _, start⟩
        · have under := iso.under may mem new
          exact goesOn a mem (opens.ctxs _ (opens.asked ▸ ctxSlot_ne under.depth))
            (opens.insts _ under.inst)
      · obtain ⟨rfl, -⟩ := List.cons.inj (running.symm.trans top)
        rw [opens.asked]
        exact opens.resource
      · obtain ⟨-, rfl⟩ := List.cons.inj (running.symm.trans top)
        exact iso.waits may

omit iso in
theorem Iso.init : Iso cfg ⟨.fresh, [], []⟩ :=
  ⟨Inv.init, by simp, fun _ _ => nofun, fun _ _ => nofun, by simp⟩

/-- **One event keeps the calls isolated.** -/
theorem Iso.step {e : Event} (assumed : σ.Assumed e)
    (undisturbed : σ.Undisturbed e) (h : σ.step cfg e = some σ') : σ'.Iso cfg := by
  have inv := iso.toInv.step undisturbed.agrees h
  cases e with
  | enter mode req loads => exact iso.enter inv assumed undisturbed h
  | run => exact iso.run inv h
  | answer e => exact iso.answer inv h
  | native gas refund | leave =>
    cases running : σ.running with
    | nil => simp [Sys.step, running] at h
    | cons a outer =>
      obtain ⟨rest, trace, v, follows⟩ := iso.follows a (by simp [running])
      simp [Sys.step, running, follows.body] at h

theorem Iso.progress (running : σ.running = a :: outer) : (σ.step cfg .run).isSome = true ∨
      ∃ slot r next trace, a.body = .interp slot (.step (.host r) next) trace := by
  obtain ⟨rest, trace, v, body, view, inst, mod, mirrored⟩ := iso.follows a (by simp [running])
  have step : σ.step cfg .run = σ.runInterp cfg a outer (State.ctxSlot a.req) trace rest := by
    simp only [Sys.step, running, body]
  rw [step]
  cases rest with
  | done u => simp [runInterp_done view]
  | step o next =>
    by_cases own : ∀ r, o ≠ .host r
    · have resource := iso.resource a outer running (waiting_eq_false body own)
      rcases handled : Machine.handle .idle o (v.machine trace) with ⟨_ | _, m⟩
      · simp [runInterp_error view resource own handled]
      · simp [runInterp_ok view resource own handled]
    · obtain ⟨r, rfl⟩ := not_forall_not.mp own
      exact .inr ⟨_, r, next, trace, body⟩

end Sys

def Activity.Disjoint (a b : Activity) : Prop :=
  a.inst ≠ b.inst ∧ ∀ s, a.ctx = some s → b.ctx ≠ some s

theorem Sys.Base.disjoint {σ : Sys} (base : σ.Base) : σ.running.Pairwise Activity.Disjoint := by
  refine base.nested.imp_of_mem fun {a b} memA memB under => ⟨under.inst.symm, fun s mine other => ?_⟩
  have same := ((base.placed a memA).own s mine).symm.trans ((base.placed b memB).own s other)
  exact Sys.ctxSlot_ne under.depth same.symm

/-- **Calls are isolated.** No two running calls ever share an instance or a context. And in a
history of interpreted calls whose lookups find the calls' code, in which a call agrees in code with
those running for its address and revision, and in which a call at depth 0 has the default revision
once the main instance exists:

* a call that has returned returns the same, having made the same host calls, on a fresh VM whose
  host gives the same answers;
* a call that is running is at the point at which it would be on such a VM;
* the innermost call can go on unless it waits for its host. -/
theorem isolated (cfg : Config) {events : List Event} {σ : Sys}
    (reached : (system cfg).run (system cfg).init events = some σ) : σ.running.Pairwise Activity.Disjoint ∧
    ((system cfg).Along (fun σ e => σ.Assumed e ∧ σ.Undisturbed e) (system cfg).init events →
      (∀ ret ∈ σ.returned, ∀ host : Host, host.Gives ret.trace →
        ∃ n σ', ret.req.onFresh cfg host n = some σ' ∧ σ'.running = [] ∧ σ'.returned = [ret]) ∧
      (∀ a ∈ σ.running, ∃ rest trace, a.body = .interp (State.ctxSlot a.req) rest trace ∧
        ∀ host : Host, host.Gives trace → ∃ n σ' b,
          a.req.onFresh cfg host n = some σ' ∧ σ'.running = [b] ∧ b.body = a.body) ∧
      (∀ a outer, σ.running = a :: outer → (σ.step cfg .run).isSome = true ∨
        ∃ slot r next trace, a.body = .interp slot (.step (.host r) next) trace)) := by
  refine ⟨(Sys.Base.reached reached).disjoint, fun meets => ?_⟩
  have iso : σ.Iso cfg := System.run_invariant (fun _ _ _ iso ok step => iso.step ok.1 ok.2 step)
    Sys.Iso.init meets reached
  refine ⟨iso.returned, fun a mem => ?_, fun a outer running => iso.progress running⟩
  obtain ⟨rest, trace, v, body, -, -, -, mirrored⟩ := iso.follows a mem
  refine ⟨rest, trace, body, fun host gives => ?_⟩
  obtain ⟨n, σ', there, twin⟩ := mirrored host gives
  obtain ⟨b, running, -, same⟩ := twin.running
  exact ⟨n, σ', b, there, running, same.trans body.symm⟩

def Request.under (rev : Revision) (code : Bytecode) : Request := ⟨rev, .bare 0 100000, code⟩

def emptyCallEvents : List Event :=
  .enter .interp (.under .frontier ⟨[], by decide⟩) true :: List.replicate 4 .run

instance (σ : Sys) : ∀ e, Decidable (σ.Assumed e ∧ σ.Undisturbed e)
  | .enter mode req loads =>
    have (a b : Bytes) : Decidable (SameWindow a b) := inferInstanceAs (Decidable (_ ∧ _ ∧ _))
    decidable_of_iff ((mode = .interp ∧ ∀ id ∈ (σ.vm.find loads req).1, ∀ m ∈ (σ.vm.find loads req).2.modules.loaded id,
        m.code.bytes = req.code.bytes) ∧ (σ.mayEnter req = true → (∀ a ∈ σ.running, a.req.cacheable = true →
          req.cacheable = true → a.req.key = req.key → SameWindow req.code.bytes a.req.code.bytes) ∧
          (req.msg.depth = 0 → σ.vm.main.isSome = true → req.rev = .default)))
      (and_congr_left' (and_congr_right' ⟨fun h id m found => h id found m, fun h id found m => h id m found⟩))
  | .run | .answer _ | .native _ _ | .leave => .isTrue ⟨trivial, trivial⟩

def storing : Request := .plain 0 ⟨[0x60, 1, 0x60, 2, 0x52], by decide⟩

def calling : Request :=
  .plain 0 ⟨[0x60, 3, 0x60, 0, 0x60, 1, 0x60, 0, 0x60, 0, 0x60, 7, 0x61, 3, 0xe8, 0xf1], by decide⟩

def called : Request :=
  ⟨.cancun, { Message.bare 0 1000 with depth := 1, recipient := 7, input := [0], codeAddress := 7 },
    ⟨[0x60, 5, 0x60, 0, 0x53], by decide⟩⟩

/-- A call that writes memory, and after it one that sends a message, which the host answers by a third. -/
def reusing : List Event :=
  .enter .interp storing true :: List.replicate 27 .run ++
  .enter .interp calling true :: List.replicate 45 .run ++
  .answer ⟨.accessAccount 7, .cold⟩ :: List.replicate 9 .run ++
  .enter .interp called true :: List.replicate 27 .run ++
  .answer ⟨.call called.msg, ⟨.success, 997, 0, [5], 0⟩⟩ :: List.replicate 12 .run

theorem reusing_isSome : ((system .plain).run (system .plain).init reusing).isSome = true := by decide +kernel

/-- Where it ends, none is running, and each of the three has returned what it returns on a fresh VM. -/
theorem isolated_reusing : let σ := ((system .plain).run (system .plain).init reusing).get reusing_isSome
    σ.running.length = 0 ∧ σ.returned.map (fun ret => (ret.req.msg.depth, ret.result.status, ret.trace.length)) =
      [(0, .success, 2), (1, .success, 0), (0, .success, 0)] ∧
    ∀ ret ∈ σ.returned, ∀ host : Host, host.Gives ret.trace →
      ∃ n σ', ret.req.onFresh .plain host n = some σ' ∧ σ'.running = [] ∧ σ'.returned = [ret] := by
  have meets : (system .plain).Along (fun σ e => σ.Assumed e ∧ σ.Undisturbed e) (system .plain).init reusing := by
    decide +kernel
  exact ⟨by decide +kernel, by decide +kernel, ((isolated .plain (Option.some_get reusing_isSome).symm).2 meets).1⟩

/-- **A fresh VM does not heed the revision of its first call**: `PUSH0` under `FRONTIER` fails on a
VM that has made a call, and succeeds on a fresh one. -/
theorem fresh_vm_ignores_revision : (((system .plain).run (system .plain).init (emptyCallEvents ++
      .enter .interp (.under .frontier ⟨[0x5f], by decide⟩) true :: List.replicate 6 .run)).map
        fun σ => σ.returned.map fun ret => (ret.req.code.bytes, ret.result.status, ret.trace.length)) =
      some [([0x5f], .undefinedInstruction, 0), ([], .success, 0)] ∧
    ((Request.under .frontier ⟨[0x5f], by decide⟩).onFresh .plain .idle 12).map (fun σ => σ.returned.map fun ret =>
          (ret.req.code.bytes, ret.result.status, ret.trace.length)) = some [([0x5f], .success, 0)] := by
  decide +kernel

end Dtvm.Vm
