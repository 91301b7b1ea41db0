import Dtvm.Vm.Entry

/-!
# Running calls keep their modules

A running call's instance holds its module, a cacheable call's module is the entry of its key, and no two running
calls have the same instance (`Sys.Inv`). So, for every history of calls:

* the module a lookup answers was loaded for the request's revision from code of the same length with the same
  first and last 256 bytes (`find_matches`), which is less than the same code;
* the eviction loop never unloads a module that a running call executes, but the eviction of an entry that no
  longer matches does, exactly when a nested call comes with other code for the address and revision of a running
  one (`history_keeps_running_iff`).
-/

namespace Dtvm.Vm

open Effect

/-! ## What holds of the running calls -/

/-- The call has an instance, at a place for its depth, and its own context. -/
structure Activity.Placed (vm : State) (a : Activity) : Prop where
  there : (vm.modOf a.inst).isSome = true
  fits : a.inst.Fits a.req.msg.depth
  own : ∀ s, a.ctx = some s → s = State.ctxSlot a.req

/-- The call's instance holds its module, which is loaded for the call's revision from code that
matches the call's; a cacheable call's module is the entry of its key, another's is under none. -/
structure Activity.Sound (vm : State) (a : Activity) : Prop where
  holds : vm.modOf a.inst = some a.mod
  code : ∃ m, vm.modules.loaded a.mod = some m ∧ m.rev = a.req.rev ∧
    SameWindow a.req.code.bytes m.code.bytes
  entry : a.req.cacheable = true → vm.modules.addrCache.lookup a.req.key = some a.mod
  transient : a.req.cacheable = false → ∀ k, vm.modules.addrCache.lookup k ≠ some a.mod

structure Activity.Under (inner outer : Activity) : Prop where
  depth : outer.req.msg.depth < inner.req.msg.depth
  inst : outer.inst ≠ inner.inst

/-- Neither of two nested calls unloads the other's module at its end. -/
structure Activity.Apart (inner outer : Activity) : Prop where
  keepsOuter : outer.mod ∉ inner.guards
  keepsInner : inner.mod ∉ outer.guards

/-- What holds in every history: the modules are in order, no two running calls have the same
instance, and what they unload in the end is under no key. -/
structure Sys.Base (σ : Sys) : Prop where
  modules : σ.vm.modules.Ok
  placed : ∀ a ∈ σ.running, a.Placed σ.vm
  nested : σ.running.Pairwise Activity.Under
  guards : ∀ a ∈ σ.running, State.NewGuards 0 σ.vm.modules a.guards

/-- What holds in the histories whose calls come with matching code. -/
structure Sys.Inv (σ : Sys) : Prop extends σ.Base where
  sound : ∀ a ∈ σ.running, a.Sound σ.vm
  apart : σ.running.Pairwise Activity.Apart

/-- The two are the same call, at different points of its run. -/
structure Activity.Same (a a' : Activity) : Prop where
  req : a'.req = a.req
  mod : a'.mod = a.mod
  inst : a'.inst = a.inst
  guards : a'.guards = a.guards
  ctx : a'.ctx = a.ctx

namespace Activity

variable {vm vm' : State} {a a' b : Activity}

theorem Placed.of_same (h : a.Placed vm) (same : a.Same a') : a'.Placed vm := by
  obtain ⟨req', mod', inst', guards', body'⟩ := a'
  obtain ⟨rfl, rfl, rfl, rfl, ctx⟩ := same
  exact ⟨h.there, h.fits, ctx ▸ h.own⟩

theorem Sound.of_same (h : a.Sound vm) (same : a.Same a') : a'.Sound vm := by
  obtain ⟨req', mod', inst', guards', body'⟩ := a'
  obtain ⟨rfl, rfl, rfl, rfl, -⟩ := same
  exact ⟨h.holds, h.code, h.entry, h.transient⟩

theorem Under.of_same (h : a.Under b) (same : a.Same a') : a'.Under b :=
  ⟨by rw [same.req]; exact h.depth, by rw [same.inst]; exact h.inst⟩

theorem Apart.of_same (h : a.Apart b) (same : a.Same a') : a'.Apart b :=
  ⟨by rw [same.guards]; exact h.keepsOuter, by rw [same.mod]; exact h.keepsInner⟩

theorem Sound.of_sameMods (h : a.Sound vm) (same : vm.SameMods vm') : a.Sound vm' := by
  obtain ⟨modules, mods⟩ := same
  exact ⟨(mods _).trans h.holds, modules ▸ h.code, modules ▸ h.entry, modules ▸ h.transient⟩

/-- A sound call stays sound when the modules change in a way that keeps its own. -/
theorem Sound.of_keeps {keep : ModId → Prop} (h : a.Sound vm) (ok : vm.modules.Ok)
    (keeps : Modules.Keeps keep vm.modules vm'.modules) (kept : keep a.mod)
    (holds : vm'.modOf a.inst = some a.mod) : a.Sound vm' := by
  obtain ⟨m, loaded, rev, window⟩ := h.code
  refine ⟨holds, ⟨m, keeps.loaded kept loaded, rev, window⟩,
    fun yes => keeps.lookup kept (h.entry yes), fun no k entry => ?_⟩
  exact h.transient no k (keeps.older (ok.fresh loaded) entry)

end Activity

namespace Sys

variable {cfg : Config} {σ σ' : Sys} {e : Event}

structure Works (σ σ' : Sys) (a a' : Activity) (outer : List Activity) : Prop where
  before : σ.running = a :: outer
  after : σ'.running = a' :: outer
  same : a.Same a'
  mods : σ.vm.SameMods σ'.vm

structure Ends (σ σ' : Sys) (a : Activity) : Prop where
  running : σ.running = a :: σ'.running
  modules : σ'.vm.modules = σ.vm.modules.unloadAll a.guards
  mods : ∀ slot, σ'.vm.modOf slot = σ.vm.modOf slot

structure Enters (cfg : Config) (σ σ' : Sys) (mode : Mode) (req : Request) (loads : Bool) : Prop where
  may : σ.mayEnter req = true
  vm : σ'.vm = (σ.vm.enter cfg mode loads req).2
  running : σ'.running = (σ.vm.enter cfg mode loads req).1.toList ++ σ.running

variable {a : Activity} {outer : List Activity}

theorem runInterp_cases {slot : CtxSlot} {trace : List HostEvent} {rest : Code Unit} (running : σ.running = a :: outer)
    (body : a.body = .interp slot rest trace) (h : σ.runInterp cfg a outer slot trace rest = some σ') :
    (∃ a', Works σ σ' a a' outer) ∨ Ends σ σ' a := by
  have same : ∀ rest', a.Same { a with body := .interp slot rest' trace } := fun _ =>
    ⟨rfl, rfl, rfl, rfl, by simp [Activity.ctx, body]⟩
  unfold runInterp at h
  split at h
  · obtain ⟨s, -, h⟩ := Option.bind_eq_some_iff.mp h
    cases h
    exact .inl ⟨_, running, rfl, same _, .refl _⟩
  · cases h
  · rename_i o next _
    obtain ⟨here, -, h⟩ := Option.bind_eq_some_iff.mp h
    obtain ⟨m, -, h⟩ := Option.bind_eq_some_iff.mp h
    cases answer : Machine.handle .idle o m with
    | mk r m' =>
      cases r with
      | ok ans =>
        simp only [answer] at h
        cases h
        exact .inl ⟨_, running, rfl, same _, State.sameMods_store _ _ _⟩
      | error halt =>
        simp only [answer] at h
        cases h
        refine .inr ⟨running, ?_, fun slot' => ?_⟩
        · exact congrArg (Modules.unloadAll a.guards) (State.sameMods_store σ.vm here _).1
        · exact (State.modOf_withModules _ _ _).trans ((State.sameMods_store σ.vm here _).2 slot')

theorem step_enter_iff {mode : Mode} {req : Request} {loads : Bool} : σ.step cfg (.enter mode req loads) = some σ' ↔
      Enters cfg σ σ' mode req loads ∧ σ'.returned = σ.returned := by
  simp only [step, Option.ite_none_right_eq_some, Option.some.injEq]
  constructor
  · rintro ⟨may, rfl⟩
    exact ⟨⟨may, rfl, rfl⟩, rfl⟩
  · rintro ⟨⟨may, vm, running⟩, returned⟩
    obtain ⟨vm', running', returned'⟩ := σ'
    cases vm
    cases running
    cases returned
    exact ⟨may, rfl⟩

theorem step_cases (h : σ.step cfg e = some σ') :
    (∃ mode req loads, e = .enter mode req loads ∧ Enters cfg σ σ' mode req loads) ∨
    (∃ a a' outer, Works σ σ' a a' outer) ∨ (∃ a, Ends σ σ' a) := by
  cases e with
  | enter mode req loads => exact .inl ⟨mode, req, loads, rfl, (step_enter_iff.mp h).1⟩
  | run =>
    simp only [step] at h
    split at h
    · cases h
    · rename_i a outer running
      split at h
      · cases h
      · rename_i body
        rcases runInterp_cases running body h with ⟨a', works⟩ | ends
        · exact .inr (.inl ⟨a, a', outer, works⟩)
        · exact .inr (.inr ⟨a, ends⟩)
  | answer answer =>
    simp only [step] at h
    split at h
    · cases h
    · rename_i a outer running
      split at h
      · cases h
      · rename_i body
        unfold takeAnswer at h
        split at h
        · split at h
          · cases h
            exact .inr (.inl ⟨a, _, outer, running, rfl,
              ⟨rfl, rfl, rfl, rfl, by simp [Activity.ctx, body]⟩, State.sameMods_answered _ _ _⟩)
          · cases h
        · cases h
  | native gas refund =>
    simp only [step] at h
    split at h
    · cases h
    · rename_i a outer running
      split at h
      · rename_i inst _ there
        cases h
        exact .inr (.inl ⟨a, a, outer, running, running, ⟨rfl, rfl, rfl, rfl, rfl⟩,
          State.sameMods_setInst inst there rfl⟩)
      · cases h
  | leave =>
    simp only [step] at h
    split at h
    · cases h
    · rename_i a outer running
      split at h
      · cases h
      · cases h
        exact .inr (.inr ⟨a, running, rfl, fun slot => State.modOf_withModules _ _ _⟩)

/-! ## Histories -/

/-- A call comes with code that matches that of every running call for the same address and
revision. -/
def Agrees (σ : Sys) (req : Request) : Prop :=
  ∀ a ∈ σ.running, a.req.cacheable = true → req.cacheable = true → a.req.key = req.key →
    SameWindow req.code.bytes a.req.code.bytes

/-- For a running call, to have other code for its key is to find its module stale. -/
theorem stale_iff {vm : State} (sound : a.Sound vm) (ok : vm.modules.Ok)
    (req : Request) : Modules.Stale req vm.modules a.mod ↔
      a.req.cacheable = true ∧ req.cacheable = true ∧ a.req.key = req.key ∧
        ¬ SameWindow req.code.bytes a.req.code.bytes := by
  obtain ⟨m, loaded, -, window⟩ := sound.code
  have hits : vm.modules.hits req a.mod = false ↔
      ¬ SameWindow req.code.bytes a.req.code.bytes := by
    rw [← Bool.not_eq_true, Modules.hits, loaded, validateCodeMatch_iff]
    exact not_congr ⟨fun h => h.trans window.symm, fun h => h.trans window⟩
  unfold Modules.Stale
  rw [hits]
  constructor
  · rintro ⟨cacheable, entry, other⟩
    have mine : a.req.cacheable = true := by
      by_contra no
      exact sound.transient (by simpa using no) _ entry
    exact ⟨mine, cacheable, ok.inj (sound.entry mine) entry, other⟩
  · rintro ⟨mine, cacheable, key, other⟩
    exact ⟨cacheable, key ▸ sound.entry mine, other⟩

theorem agrees_iff (inv : σ.Inv) (req : Request) :
    σ.Agrees req ↔ ∀ a ∈ σ.running, ¬ Modules.Stale req σ.vm.modules a.mod := by
  refine forall₂_congr fun a mem => ?_
  rw [stale_iff (inv.sound a mem) inv.modules]
  tauto

theorem mayEnter_depth (base : σ.Base) {req : Request} (may : σ.mayEnter req = true) :
    ∀ a ∈ σ.running, a.req.msg.depth < req.msg.depth := by
  cases running : σ.running with
  | nil => simp
  | cons b outer =>
    have top : b.req.msg.depth < req.msg.depth := by
      simp only [mayEnter, running, Bool.and_eq_true, decide_eq_true_eq] at may
      exact may.2
    intro a mem
    rcases List.mem_cons.mp mem with rfl | mem
    · exact top
    · have nested := base.nested
      rw [running] at nested
      exact ((List.pairwise_cons.mp nested).1 a mem).depth.trans top

theorem Inv.init : Inv ⟨.fresh, [], []⟩ :=
  ⟨⟨Modules.ok_empty, by simp, .nil, by simp⟩, by simp, .nil⟩

/-! Steps of the innermost call, and its end. -/

theorem Base.works {a' : Activity} (base : σ.Base) (h : Works σ σ' a a' outer) : σ'.Base := by
  obtain ⟨modules, mods⟩ := h.mods
  have goesOn : ∀ b ∈ σ.running, b.Placed σ'.vm := fun b mem =>
    ⟨by rw [mods]; exact (base.placed b mem).there, (base.placed b mem).fits,
      (base.placed b mem).own⟩
  obtain ⟨under, nested⟩ := List.pairwise_cons.mp (h.before ▸ base.nested)
  refine ⟨modules ▸ base.modules, fun b mem => ?_, ?_, fun b mem => ?_⟩
  · rw [h.after] at mem
    rcases List.mem_cons.mp mem with rfl | mem
    · exact (goesOn a (by simp [h.before])).of_same h.same
    · exact goesOn b (by simp [h.before, mem])
  · rw [h.after, List.pairwise_cons]
    exact ⟨fun b mem => (under b mem).of_same h.same, nested⟩
  · rw [modules]
    rw [h.after] at mem
    rcases List.mem_cons.mp mem with rfl | mem
    · rw [h.same.guards]
      exact base.guards a (by simp [h.before])
    · exact base.guards b (by simp [h.before, mem])

theorem Base.ends (base : σ.Base) (h : Ends σ σ' a) : σ'.Base := by
  obtain ⟨ok, keeps⟩ := Modules.unloadAll_spec base.modules fun id mem =>
    (base.guards a (by simp [h.running]) id mem).2.2
  rw [← h.modules] at ok keeps
  have still : ∀ b ∈ σ'.running, b ∈ σ.running := fun b mem => by simp [h.running, mem]
  refine ⟨ok, fun b mem => ?_, ?_, fun b mem => (base.guards b (still b mem)).keeps keeps⟩
  · obtain ⟨there, fits, own⟩ := base.placed b (still b mem)
    exact ⟨by rwa [h.mods], fits, own⟩
  · exact (List.pairwise_cons.mp (h.running ▸ base.nested)).2

theorem Inv.works {a' : Activity} (inv : σ.Inv) (h : Works σ σ' a a' outer) : σ'.Inv := by
  have apart := inv.apart
  rw [h.before, List.pairwise_cons] at apart
  refine ⟨inv.toBase.works h, fun b mem => ?_, ?_⟩
  · rw [h.after] at mem
    rcases List.mem_cons.mp mem with rfl | mem
    · exact ((inv.sound a (by simp [h.before])).of_same h.same).of_sameMods h.mods
    · exact (inv.sound b (by simp [h.before, mem])).of_sameMods h.mods
  · rw [h.after, List.pairwise_cons]
    exact ⟨fun b mem => (apart.1 b mem).of_same h.same, apart.2⟩

theorem Inv.ends (inv : σ.Inv) (h : Ends σ σ' a) : σ'.Inv := by
  have apart := inv.apart
  rw [h.running, List.pairwise_cons] at apart
  obtain ⟨-, keeps⟩ := Modules.unloadAll_spec inv.modules fun id mem =>
    (inv.guards a (by simp [h.running]) id mem).2.2
  rw [← h.modules] at keeps
  refine ⟨inv.toBase.ends h, fun b mem => ?_, apart.2⟩
  have sound := inv.sound b (by simp [h.running, mem])
  exact sound.of_keeps inv.modules keeps (apart.1 b mem).keepsOuter
    ((h.mods _).trans sound.holds)

/-! The start of a call. -/

section Enters

variable {mode : Mode} {req : Request} {loads : Bool}

theorem Enters.starts (h : Enters cfg σ σ' mode req loads) (ok : σ.vm.modules.Ok) :
    ∃ entered : Option Activity, σ'.running = entered.toList ++ σ.running ∧
      State.Starts σ.vm.modules.modCounter req σ.vm (entered, σ'.vm) := by
  refine ⟨_, h.running, ?_⟩
  rw [h.vm]
  exact State.enter_starts cfg mode loads ok

theorem Base.under (base : σ.Base) (may : σ.mayEnter req = true) {a b : Activity} {vm' : State}
    (mem : a ∈ σ.running) (entered : State.Entered σ.vm.modules.modCounter req σ.vm vm' b) : b.Under a := by
  have depth := mayEnter_depth base may a mem
  have placed := base.placed a mem
  exact ⟨by rwa [entered.asked], entered.apart _ _ placed.fits depth placed.there⟩

theorem Base.enters (base : σ.Base) (h : Enters cfg σ σ' mode req loads) : σ'.Base := by
  obtain ⟨entered, running, starts⟩ := h.starts base.modules
  have guards : ∀ b ∈ σ.running, State.NewGuards 0 σ'.vm.modules b.guards := fun b mem =>
    (base.guards b mem).keeps starts.keeps
  cases entered with
  | none =>
    rw [Option.toList_none, List.nil_append] at running
    refine ⟨starts.ok, fun b mem => ?_, running ▸ base.nested, running ▸ guards⟩
    obtain ⟨there, fits, own⟩ := base.placed b (running ▸ mem)
    exact ⟨by rwa [starts.failed rfl], fits, own⟩
  | some new =>
    have entered := starts.entered new rfl
    have under := fun b mem => base.under (a := b) h.may mem entered
    have nested : σ'.running.Pairwise Activity.Under := by
      rw [running]
      exact List.pairwise_cons.mpr ⟨under, base.nested⟩
    refine ⟨starts.ok, fun b mem => ?_, nested, fun b mem => ?_⟩ <;>
      rw [running] at mem <;> rcases List.mem_cons.mp mem with rfl | mem
    · exact ⟨by simp [entered.holds], entered.asked ▸ entered.fits, entered.asked ▸ entered.own⟩
    · obtain ⟨there, fits, own⟩ := base.placed b mem
      exact ⟨by rwa [entered.others _ (under b mem).inst], fits, own⟩
    · exact fun id mem => ⟨Nat.zero_le _, (entered.guards id mem).2⟩
    · exact guards b mem

/-- A running call goes on next to a call that was started inside it with matching code. -/
theorem Inv.next_to (inv : σ.Inv) {a b : Activity} {vm' : State} (mem : a ∈ σ.running)
    (entered : State.Entered σ.vm.modules.modCounter req σ.vm vm' b) {keep : ModId → Prop}
    (keeps : Modules.Keeps keep σ.vm.modules vm'.modules) : b.Apart a := by
  have sound := inv.sound a mem
  obtain ⟨m, loaded, -⟩ := sound.code
  have old := inv.modules.fresh loaded
  refine ⟨fun guard => ?_, fun guard => ?_⟩
  · exact Nat.not_le.mpr old (entered.guards _ guard).1
  · -- what `a` unloads in the end is older than the call and under no key
    obtain ⟨-, older, free⟩ := inv.guards a mem _ guard
    by_cases cacheable : req.cacheable = true
    · exact free _ (keeps.older older (entered.entry cacheable))
    · exact Nat.not_le.mpr older (entered.transient (by simpa using cacheable)).1

/-- A running call's module is one that starting a call with matching code keeps. -/
theorem Inv.kept (inv : σ.Inv) (agrees : σ.Agrees req) {a : Activity} (mem : a ∈ σ.running) :
    a.mod < σ.vm.modules.modCounter ∧ σ.vm.isModuleInUse a.mod = true ∧ ¬ Modules.Stale req σ.vm.modules a.mod := by
  have sound := inv.sound a mem
  obtain ⟨m, loaded, -⟩ := sound.code
  exact ⟨inv.modules.fresh loaded, State.inUse_of_modOf sound.holds, (agrees_iff inv req).mp agrees a mem⟩

theorem Inv.enters (inv : σ.Inv) (h : Enters cfg σ σ' mode req loads) (agrees : σ.Agrees req) : σ'.Inv := by
  obtain ⟨entered, running, starts⟩ := h.starts inv.modules
  have goesOn : ∀ a ∈ σ.running, σ'.vm.modOf a.inst = some a.mod → a.Sound σ'.vm :=
    fun a mem => (inv.sound a mem).of_keeps inv.modules starts.keeps (inv.kept agrees mem)
  cases entered with
  | none =>
    rw [Option.toList_none, List.nil_append] at running
    refine ⟨inv.toBase.enters h, fun a mem => ?_, running ▸ inv.apart⟩
    rw [running] at mem
    exact goesOn a mem ((starts.failed rfl _).trans (inv.sound a mem).holds)
  | some b =>
    have new := starts.entered b rfl
    have apart := fun a mem => inv.next_to (a := a) mem new starts.keeps
    refine ⟨inv.toBase.enters h, fun a mem => ?_, ?_⟩
    · rw [running] at mem
      rcases List.mem_cons.mp mem with rfl | mem
      · exact ⟨new.holds, new.asked ▸ new.code, new.asked ▸ new.entry,
          fun no => (new.transient (new.asked ▸ no)).2⟩
      · exact goesOn a mem ((new.others _ (inv.toBase.under h.may mem new).inst).trans (inv.sound a mem).holds)
    · rw [running]
      exact List.pairwise_cons.mpr ⟨apart, inv.apart⟩

end Enters

/-! ## Over whole histories -/

theorem Base.step (base : σ.Base) (h : σ.step cfg e = some σ') : σ'.Base := by
  obtain ⟨mode, req, loads, -, enters⟩ | ⟨a, a', outer, works⟩ | ⟨a, ends⟩ := step_cases h
  · exact base.enters enters
  · exact base.works works
  · exact base.ends ends

theorem Base.reached {events : List Event} (h : (system cfg).run (system cfg).init events = some σ) : σ.Base :=
  System.run_invariant (fun _ _ _ base _ step => base.step step) Inv.init.toBase
    (System.along_true _ _) h

/-- The calls of a history come with matching code: a call that may start agrees with those that
are running. -/
def Matches (σ : Sys) : Event → Prop
  | .enter _ req _ => σ.mayEnter req = true → σ.Agrees req
  | _ => True

/-- Starting a call leaves the modules of the running calls loaded. -/
def KeepsRunning (cfg : Config) (σ : Sys) : Event → Prop
  | .enter mode req loads => ∀ σ', σ.step cfg (.enter mode req loads) = some σ' →
      ∀ a ∈ σ.running, σ'.vm.modules.loaded a.mod ≠ none
  | _ => True

theorem Inv.step (inv : σ.Inv) (agrees : σ.Matches e) (h : σ.step cfg e = some σ') : σ'.Inv := by
  obtain ⟨mode, req, loads, rfl, enters⟩ | ⟨a, a', outer, works⟩ | ⟨a, ends⟩ := step_cases h
  · exact inv.enters enters (agrees enters.may)
  · exact inv.works works
  · exact inv.ends ends

theorem keepsRunning_iff (inv : σ.Inv) (e : Event) : σ.KeepsRunning cfg e ↔ σ.Matches e := by
  cases e with
  | enter mode req loads =>
    constructor
    · intro keeps may
      rw [agrees_iff inv]
      intro a mem stale
      let after : Sys := { σ with
        vm := (σ.vm.enter cfg mode loads req).2
        running := (σ.vm.enter cfg mode loads req).1.toList ++ σ.running }
      have enters : Enters cfg σ after mode req loads := ⟨may, rfl, rfl⟩
      obtain ⟨_, -, starts⟩ := enters.starts inv.modules
      -- a call inside another has a positive depth, so its lookup is made
      have deep := (Nat.zero_le _).trans_lt (mayEnter_depth inv.toBase may a mem)
      exact keeps after (step_enter_iff.mpr ⟨enters, rfl⟩) a mem (starts.stale deep _ stale)
    · intro agrees σ' h a mem
      obtain ⟨enters, -⟩ := step_enter_iff.mp h
      have still : a ∈ σ'.running := by
        rw [enters.running]
        exact List.mem_append_right _ mem
      obtain ⟨m, loaded, -⟩ := ((inv.enters enters (agrees enters.may)).sound a still).code
      simp [loaded]
  | run | answer answer | native gas refund | leave => exact Iff.rfl

/-- **A running call keeps its module in exactly the histories whose calls come with matching
code.** The lookups of a history leave every running call's module loaded if and only if no call
starts, inside a running one, for the same code address and revision with code that fails the
comparison of `validateCodeMatch`. -/
theorem history_keeps_running_iff (cfg : Config) (events : List Event) :
    (system cfg).Along (Sys.KeepsRunning cfg) (system cfg).init events ↔
      (system cfg).Along Sys.Matches (system cfg).init events :=
  System.along_congr (fun _ e inv => keepsRunning_iff inv e)
    (fun _ _ _ inv keeps step => inv.step ((keepsRunning_iff inv _).mp keeps) step) Inv.init

end Sys

/-- A call at a depth, with the given code for the address 0. -/
def Request.plain (depth : Nat) (code : Bytecode) : Request :=
  ⟨.cancun, { Message.bare 0 100000 with depth := depth }, code⟩

/-- Opcodes without static costs, and no module for which the interpreter is preferred. -/
def Config.plain : Config := ⟨.free, fun _ => 0, fun _ => false⟩

/-- A call for the address of its caller with other code unloads the caller's module. -/
theorem nested_call_unloads_caller : (((system .plain).run (system .plain).init
      [.enter .multipass (.plain 0 ⟨[0x00], by decide⟩) true,
       .enter .multipass (.plain 1 ⟨[0x01], by decide⟩) true]).map fun σ =>
        σ.running.map fun a => (a.req.msg.depth, (σ.vm.modules.loaded a.mod).isSome))
      = some [(1, true), (0, false)] := by
  decide +kernel

/-! ## What a lookup finds -/

/-- The states in which `findModuleCached` is called: that of the history and, when multipass mode
falls back on the interpreter, what the first lookup has left. -/
inductive Sys.LooksUpIn (σ : Sys) : State → Prop
  | first : σ.LooksUpIn σ.vm
  | again (loads : Bool) (req : Request) : σ.LooksUpIn (σ.vm.find loads req).2

theorem Sys.LooksUpIn.ok {σ : Sys} {vm : State} (h : σ.LooksUpIn vm) (ok : σ.vm.modules.Ok) : vm.modules.Ok := by
  cases h with
  | first => exact ok
  | again loads req => exact (Modules.find_spec σ.vm.isModuleInUse loads req ok rfl).1

/-- **What a lookup finds, after any history**: a module that was loaded for the call's revision
from code of the same length with the same first and last 256 bytes, which is the call's code if it
has at most 512 bytes. -/
theorem find_matches (cfg : Config) {events : List Event} {σ : Sys}
    (reached : (system cfg).run (system cfg).init events = some σ) {vm : State}
    (state : σ.LooksUpIn vm) {loads : Bool} {req : Request} {id : ModId} (found : (vm.find loads req).1 = some id) :
    ∃ m, (vm.find loads req).2.modules.loaded id = some m ∧ m.rev = req.rev ∧ SameWindow req.code.bytes m.code.bytes ∧
      (req.code.bytes.length ≤ 512 → req.code.bytes = m.code.bytes) := by
  obtain ⟨-, -, -, spec⟩ := Modules.find_spec vm.isModuleInUse loads req
    (state.ok (Sys.Base.reached reached).modules) rfl
  obtain ⟨m, loaded, rev, window⟩ := (spec id found).loaded
  exact ⟨m, loaded, rev, window, window.eq_of_short⟩

def middle (b : UInt8) : Bytecode :=
  ⟨List.replicate 256 0 ++ b :: List.replicate 256 0, by
    rw [List.length_append, List.length_cons, List.length_replicate]; decide⟩

def afterOne : List Event := [.enter .multipass (.plain 0 (middle 0)) true, .leave]

theorem run_afterOne_isSome : ((system .plain).run (system .plain).init afterOne).isSome = true := by
  decide +kernel

def sysAfterOne : Sys :=
  ((system .plain).run (system .plain).init afterOne).get run_afterOne_isSome

theorem sysAfterOne_reached : (system .plain).run (system .plain).init afterOne = some sysAfterOne :=
  (Option.some_get run_afterOne_isSome).symm

def afterOneReq : Request := .plain 0 (middle 1)

theorem find_matches_afterOne : (sysAfterOne.vm.find true afterOneReq).1 = some 0 ∧
    ∃ m, (sysAfterOne.vm.find true afterOneReq).2.modules.loaded 0 = some m ∧
      m.rev = afterOneReq.rev ∧ SameWindow afterOneReq.code.bytes m.code.bytes ∧
      (afterOneReq.code.bytes.length ≤ 512 → afterOneReq.code.bytes = m.code.bytes) := by
  have found : (sysAfterOne.vm.find true afterOneReq).1 = some 0 := by decide +kernel
  exact ⟨found, find_matches .plain sysAfterOne_reached .first found⟩

/-- A call with other code of the same length finds the module of an earlier one. -/
theorem find_other_code : (sysAfterOne.vm.find true afterOneReq).1 = some 0 ∧
    ((sysAfterOne.vm.find true afterOneReq).2.modules.loaded 0).map (·.code.bytes) =
      some (middle 0).bytes ∧ (middle 0).bytes ≠ afterOneReq.code.bytes := by
  decide +kernel

/-- **A nested call shares the module of a running one**: where the calls of a history come with matching code, a
lookup with the address, revision and code of a running call finds that call's module, and loads none. -/
theorem find_shares (cfg : Config) {events : List Event} {σ : Sys}
    (matching : (system cfg).Along Sys.Matches (system cfg).init events)
    (reached : (system cfg).run (system cfg).init events = some σ) {a : Activity} (running : a ∈ σ.running)
    (kept : a.req.cacheable = true) {req : Request} (cacheable : req.cacheable = true) (key : a.req.key = req.key)
    (window : SameWindow req.code.bytes a.req.code.bytes) (loads : Bool) :
    (σ.vm.find loads req).1 = some a.mod ∧ (σ.vm.find loads req).2.modules.loaded = σ.vm.modules.loaded := by
  have inv : σ.Inv := System.run_invariant (fun _ _ _ inv agrees step => inv.step agrees step) .init matching reached
  have entry : σ.vm.modules.addrCache.lookup req.key = some a.mod := key ▸ (inv.sound a running).entry kept
  have hit : σ.vm.modules.hits req a.mod = true := by
    by_contra miss
    have stale := (Sys.stale_iff (inv.sound a running) inv.modules req).mp ⟨cacheable, entry, by simpa using miss⟩
    exact stale.2.2.2 window
  simp [State.find, Modules.findModuleCached, cacheable, entry, hit]

def oneCall : List Event := [.enter .multipass (.plain 0 (middle 0)) true]

theorem find_shares_oneCall : ∃ σ : Sys, ∃ a ∈ σ.running, (σ.vm.find false a.req).1 = some a.mod := by
  have one : ((system .plain).run (system .plain).init oneCall).any fun σ => σ.running.map (·.req.cacheable) = [true] := by
    decide +kernel
  obtain ⟨σ, reached, one⟩ := (Option.any_eq_true _ _).mp one
  obtain ⟨a, single, kept⟩ := List.map_eq_singleton_iff.mp (of_decide_eq_true one)
  have mem : a ∈ σ.running := by simp [single]
  have start : (system .plain).Along Sys.Matches (system .plain).init oneCall :=
    ⟨fun _ a mem => absurd mem List.not_mem_nil, fun _ _ => trivial⟩
  exact ⟨σ, a, mem, (find_shares .plain start reached mem kept kept rfl (.refl _) false).1⟩

end Dtvm.Vm
