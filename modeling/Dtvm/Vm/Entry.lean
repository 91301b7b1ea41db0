import Dtvm.Vm.System

/-!
# What starting a call does to the VM

`getOrCreateInstance` gives a call an instance that no running call has, and resets it; a lookup
keeps the modules in use unless they are stale. `State.Starts` puts the two together, for both modes
of `execute()` and with the second lookup of a multipass call that falls back on the interpreter:
`State.enter_starts` is the one fact about starting a call that histories rest on.
-/

namespace Dtvm.Vm

open Effect

/-! ## Instances and their modules -/

def InstSlot.Fits : InstSlot → Nat → Prop
  | .main, depth => depth = 0
  | .nested i, depth => i < depth

namespace State

variable {vm : State} {slot slot' : InstSlot} {id : ModId}

def modOf (vm : State) (slot : InstSlot) : Option ModId := (vm.inst? slot).map (·.mod)

/-- The two states have the same modules in the same instances. -/
def SameMods (vm vm' : State) : Prop := vm'.modules = vm.modules ∧ ∀ slot, vm'.modOf slot = vm.modOf slot

theorem SameMods.refl (vm : State) : SameMods vm vm := ⟨rfl, fun _ => rfl⟩

theorem SameMods.trans {vm' vm'' : State} (h : SameMods vm vm') (h' : SameMods vm' vm'') : SameMods vm vm'' :=
  ⟨h'.1.trans h.1, fun slot => (h'.2 slot).trans (h.2 slot)⟩

theorem inUse_of_modOf (h : vm.modOf slot = some id) : vm.isModuleInUse id = true := by
  cases slot with
  | main =>
    cases main : vm.main with
    | none => simp [modOf, inst?, main] at h
    | some inst =>
      have : inst.mod = id := by simpa [modOf, inst?, main] using h
      simp [isModuleInUse, main, this]
  | nested i =>
    obtain ⟨inst, there, rfl⟩ := Option.map_eq_some_iff.mp h
    have mem : inst ∈ vm.insts := List.mem_of_getElem? there
    simp only [isModuleInUse, Bool.or_eq_true, List.any_eq_true]
    exact .inr ⟨inst, mem, by simp⟩

theorem inst?_setInst_self {old inst : Instance} (there : vm.inst? slot = some old) :
    (vm.setInst slot inst).inst? slot = some inst := by
  cases slot with
  | main => rfl
  | nested i =>
    have lt : i < vm.insts.length := (List.getElem?_eq_some_iff.mp there).1
    simp [setInst, inst?, lt]

theorem inst?_setInst_ne (ne : slot' ≠ slot) (inst : Instance) :
    (vm.setInst slot inst).inst? slot' = vm.inst? slot' := by
  cases slot with
  | main =>
    cases slot' with
    | main => exact absurd rfl ne
    | nested i => rfl
  | nested i =>
    cases slot' with
    | main => rfl
    | nested j =>
      have : i ≠ j := fun same => ne (by rw [same])
      simp [setInst, inst?, List.getElem?_set_ne this]

theorem modules_setInst (inst : Instance) : (vm.setInst slot inst).modules = vm.modules := by
  cases slot <;> rfl

theorem sameMods_setInst (old : Instance) {inst : Instance} (there : vm.inst? slot = some old)
    (same : inst.mod = old.mod) : SameMods vm (vm.setInst slot inst) := by
  refine ⟨modules_setInst inst, fun slot' => ?_⟩
  by_cases here : slot' = slot
  · subst here
    simp [modOf, inst?_setInst_self there, there, same]
  · simp [modOf, inst?_setInst_ne here]

variable (vm : State)

theorem sameMods_setCtx (s : CtxSlot) (ctx : Context) : SameMods vm (vm.setCtx s ctx) := by
  cases s <;> exact ⟨rfl, fun slot => by cases slot <;> rfl⟩

theorem sameMods_store (s : CtxSlot) (m : Machine) : SameMods vm (vm.store s m) := by
  unfold store
  split
  · exact .refl vm
  · rename_i ctx _
    have first := sameMods_setCtx vm s { ctx with
      gas := m.gas, stack := m.stack, memory := m.memory, pc := m.pc, mtx := m.mtx
      returnData := m.returnData }
    split
    · exact first
    · rename_i inst there
      refine first.trans (sameMods_setInst inst ?_ rfl)
      have same : ∀ c, (vm.setCtx s c).inst? ctx.inst = vm.inst? ctx.inst := by
        intro c
        cases s <;> cases ctx.inst <;> rfl
      rw [same, there]

/-- The revision a call's instance has: not the call's if the main instance is created. -/
def revisionOf (vm : State) (rev : Revision) (depth : Nat) : Revision :=
  if depth = 0 ∧ vm.main.isNone then .default else rev

theorem ctx?_setInst (slot : InstSlot) (inst : Instance) (s : CtxSlot) : (vm.setInst slot inst).ctx? s = vm.ctx? s := by
  cases slot <;> cases s <;> rfl

/-- **What a call's instance is**: it holds the call's module with its counters reset, no other
instance changes, and it is not one that a less deep call could have been given. -/
theorem getOrCreateInstance_spec (id : ModId) (rev : Revision) (depth : Nat) {r : InstSlot × State}
    (got : vm.getOrCreateInstance id rev depth = r) :
    (r.2.modules = vm.modules ∧ ∀ s, r.2.ctx? s = vm.ctx? s) ∧
    r.2.inst? r.1 = some ⟨id, vm.revisionOf rev depth, 0, 0⟩ ∧ (∀ slot, slot ≠ r.1 → r.2.inst? slot = vm.inst? slot) ∧
    r.1.Fits depth ∧ (∀ slot d, slot.Fits d → d < depth → (vm.modOf slot).isSome → slot ≠ r.1) := by
  subst got
  unfold getOrCreateInstance
  split
  · rename_i deep
    have revision : vm.revisionOf rev depth = rev := if_neg fun top => deep.ne' top.1
    rw [revision]
    split
    · rename_i short
      refine ⟨⟨rfl, fun s => by cases s <;> rfl⟩, by simp [inst?], fun slot ne => ?_, short, ?_⟩
      · cases slot with
        | main => rfl
        | nested i =>
          have other : i ≠ vm.insts.length := fun same => ne (by rw [same])
          rcases Nat.lt_or_gt_of_ne other with lt | gt
          · simp [inst?, List.getElem?_append_left lt]
          · have longer : (vm.insts ++ [(⟨id, rev, 0, 0⟩ : Instance)]).length ≤ i := by
              rw [List.length_append]
              exact gt
            exact (List.getElem?_eq_none longer).trans (List.getElem?_eq_none gt.le).symm
      · rintro (_ | i) d fits lt used
        · exact InstSlot.noConfusion
        · rintro ⟨⟩
          simp [modOf, inst?] at used
    · rename_i enough
      have lt : depth - 1 < vm.insts.length := by omega
      obtain ⟨old, there⟩ : ∃ old, vm.inst? (.nested (depth - 1)) = some old :=
        ⟨vm.insts[depth - 1], List.getElem?_eq_getElem lt⟩
      refine ⟨⟨modules_setInst _, ctx?_setInst _ _ _⟩, inst?_setInst_self there,
        fun slot ne => inst?_setInst_ne ne _, Nat.sub_lt deep Nat.one_pos, ?_⟩
      rintro (_ | i) d fits lt used
      · exact InstSlot.noConfusion
      · rintro ⟨⟩
        simp only [InstSlot.Fits] at fits
        omega
  · rename_i top
    have zero : depth = 0 := by omega
    have apart : ∀ (slot : InstSlot) d, slot.Fits d → d < depth → (vm.modOf slot).isSome →
        slot ≠ .main := fun _ _ _ lt => by omega
    have others : ∀ (inst : Instance) slot, slot ≠ .main →
        (vm.setInst .main inst).inst? slot = vm.inst? slot := fun inst slot ne =>
      inst?_setInst_ne ne inst
    split
    · rename_i main
      exact ⟨⟨rfl, ctx?_setInst _ _ _⟩, by simp [revisionOf, setInst, inst?, zero, main], others _,
        zero, apart⟩
    · rename_i inst main
      have revision : vm.revisionOf rev depth = rev := if_neg fun none => by simp [main] at none
      rw [revision]
      split
      · exact ⟨⟨rfl, ctx?_setInst _ _ _⟩, rfl, others _, zero, apart⟩
      · rename_i same
        refine ⟨⟨rfl, ctx?_setInst _ _ _⟩, ?_, others _, zero, apart⟩
        rw [← not_not.mp same]
        rfl

theorem sameMods_pushMessage (slot : InstSlot) (msg : Message) : SameMods vm (vm.pushMessage slot msg) := by
  unfold pushMessage
  split
  · rename_i inst there
    exact sameMods_setInst inst there rfl
  · exact .refl vm

theorem sameMods_openCtx (slot : CtxSlot) (inst : InstSlot) (msg : Message)
    (refund : Int) : SameMods vm (vm.openCtx slot inst msg refund) :=
  sameMods_setCtx vm slot _

theorem sameMods_answered (slot : CtxSlot) (r : HostReq) : SameMods vm (vm.answered slot r) := by
  cases r <;> exact ⟨rfl, fun s => by cases s <;> rfl⟩

end State

def Activity.ctx (a : Activity) : Option CtxSlot :=
  match a.body with
  | .native => none
  | .interp slot _ _ => some slot

namespace State

variable {vm : State} {slot slot' : InstSlot} {id : ModId}

/-! ## Entering a call -/

/-- What holds of a call that has been started in `vm` and runs in `vm'`. Its modules have numbers
that are new since `n`, save an entry that was found. -/
structure Entered (n : Nat) (req : Request) (vm vm' : State) (a : Activity) : Prop where
  asked : a.req = req
  code : ∃ m, vm'.modules.loaded a.mod = some m ∧ m.rev = req.rev ∧
    SameWindow req.code.bytes m.code.bytes
  entry : req.cacheable = true → vm'.modules.addrCache.lookup req.key = some a.mod
  transient : req.cacheable = false →
    n ≤ a.mod ∧ ∀ k, vm'.modules.addrCache.lookup k ≠ some a.mod
  guards : ∀ id ∈ a.guards, n ≤ id ∧ id < vm'.modules.modCounter ∧
    ∀ k, vm'.modules.addrCache.lookup k ≠ some id
  holds : vm'.modOf a.inst = some a.mod
  others : ∀ slot, slot ≠ a.inst → vm'.modOf slot = vm.modOf slot
  fits : a.inst.Fits req.msg.depth
  own : ∀ s, a.ctx = some s → s = ctxSlot req
  apart : ∀ slot d, slot.Fits d → d < req.msg.depth → (vm.modOf slot).isSome → slot ≠ a.inst

/-- Starting a call has these effects on the modules: those in use stay unless stale, a stale one
goes, and no instance changes its module but the call's. -/
structure Starts (n : Nat) (req : Request) (vm : State) (r : Option Activity × State) : Prop where
  ok : r.2.modules.Ok
  keeps : Modules.Keeps
    (fun id => id < n ∧ vm.isModuleInUse id = true ∧ ¬ Modules.Stale req vm.modules id)
    vm.modules r.2.modules
  stale : 0 < req.msg.depth → ∀ id, Modules.Stale req vm.modules id → r.2.modules.loaded id = none
  failed : r.1 = none → ∀ slot, r.2.modOf slot = vm.modOf slot
  entered : ∀ a, r.1 = some a → Entered n req vm r.2 a

/-- Modules that are new since `n` and under no key. -/
def NewGuards (n : Nat) (c : Modules) (guards : List ModId) : Prop :=
  ∀ id ∈ guards, n ≤ id ∧ id < c.modCounter ∧ ∀ k, c.addrCache.lookup k ≠ some id

theorem NewGuards.keeps {n : Nat} {c c' : Modules} {guards : List ModId} {keep : ModId → Prop}
    (h : NewGuards n c guards) (k : Modules.Keeps keep c c') : NewGuards n c' guards :=
  fun id mem => ⟨(h id mem).1, (h id mem).2.1.trans_le k.counter, fun key entry =>
    (h id mem).2.2 key (k.older (h id mem).2.1 entry)⟩

theorem newGuards_guardOf {n : Nat} {req : Request} {c c' : Modules} (le : n ≤ c.modCounter)
    (ok : c'.Ok) (found : Modules.Found req c c' id) : NewGuards n c' (guardOf req id) := by
  intro i mem
  unfold guardOf at mem
  split at mem
  · cases mem
  · rename_i transient
    rw [List.mem_singleton.mp mem]
    obtain ⟨new, free⟩ := found.transient (by simpa using transient)
    obtain ⟨m, loaded, -⟩ := found.loaded
    exact ⟨le.trans new, ok.fresh loaded, free⟩

theorem modOf_withModules (vm : State) (c : Modules) (slot : InstSlot) :
    { vm with modules := c }.modOf slot = vm.modOf slot := by
  cases slot <;> rfl

section Found

variable {n : Nat} {req : Request} {guards : List ModId} {c' : Modules}

theorem starts_of_instance {body : Body} (le : n ≤ vm.modules.modCounter) (ok : c'.Ok) (keeps : Modules.Keeps
      (fun id => vm.isModuleInUse id = true ∧ ¬ Modules.Stale req vm.modules id) vm.modules c')
    (stale : ∀ id, Modules.Stale req vm.modules id → c'.loaded id = none)
    (found : Modules.Found req vm.modules c' id) (new : NewGuards n c' guards) {vm' : State}
    (same : SameMods ({ vm with modules := c' }.getOrCreateInstance id req.rev req.msg.depth).2 vm')
    (own : ∀ s rest trace, body = .interp s rest trace → s = ctxSlot req) :
    Starts n req vm (some ⟨req, id,
      ({ vm with modules := c' }.getOrCreateInstance id req.rev req.msg.depth).1, guards, body⟩,
      vm') := by
  obtain ⟨⟨modules, -⟩, given, others, fits, apart⟩ :=
    getOrCreateInstance_spec { vm with modules := c' } id req.rev req.msg.depth rfl
  have final : vm'.modules = c' := same.1.trans modules
  refine ⟨final ▸ ok, ?_, fun _ i gone => ?_, nofun, ?_⟩
  · rw [final]
    exact keeps.mono fun _ k => k.2
  · rw [final]
    exact stale i gone
  rintro _ ⟨⟩
  refine ⟨rfl, final ▸ found.loaded, final ▸ found.entry, fun no => ?_, final ▸ new,
    (same.2 _).trans (congrArg (Option.map Instance.mod) given), fun slot ne => ?_, fits,
    fun s here => ?_, fun slot d fit lt used => ?_⟩
  · obtain ⟨newer, free⟩ := found.transient no
    exact ⟨le.trans newer, final ▸ free⟩
  · rw [same.2, modOf, others slot ne]
    exact modOf_withModules vm c' slot
  · cases body with
    | native => cases here
    | interp s' rest trace =>
      cases here
      exact own _ rest trace rfl
  · exact apart slot d fit lt (by rwa [modOf_withModules])

theorem enterInterp_starts (loads : Bool) (req : Request) (ok : vm.modules.Ok)
    (le : n ≤ vm.modules.modCounter) (new : NewGuards n vm.modules guards) :
    Starts n req vm (vm.enterInterp loads req guards) := by
  unfold enterInterp find
  cases h : vm.modules.findModuleCached vm.isModuleInUse loads req with
  | mk r c' =>
    obtain ⟨ok', keeps, stale, found⟩ := Modules.find_spec vm.isModuleInUse loads req ok h
    have new' := new.keeps keeps
    cases r with
    | none =>
      obtain ⟨ok'', keeps'⟩ := Modules.unloadAll_spec ok' fun id mem => (new' id mem).2.2
      refine ⟨ok'', (keeps.mono fun _ k => k.2).trans (keeps'.mono fun id k mem => ?_),
        fun _ id gone => ?_, fun _ slot => modOf_withModules vm _ slot, nofun⟩
      · exact Nat.not_le.mpr k.1 (new' id mem).1
      · exact keeps'.gone ((ok.lt gone.2.1).trans_le keeps.counter) (stale id gone)
    | some id =>
      have own := newGuards_guardOf le ok' (found id rfl)
      refine starts_of_instance le ok' keeps stale (found id rfl) (fun i mem => ?_)
        ((sameMods_pushMessage _ _ _).trans (sameMods_openCtx _ _ _ _ _))
        (fun _ _ _ same => by cases same; rfl)
      rcases List.mem_append.mp mem with mem | mem
      · exact own i mem
      · exact new' i mem

theorem not_stale_of_found {c : Modules} (found : Modules.Found req c c' id) (i : ModId) :
    ¬ Modules.Stale req c' i := by
  rintro ⟨cacheable, entry, miss⟩
  cases (found.entry cacheable).symm.trans entry
  obtain ⟨m, loaded, -, window⟩ := found.loaded
  simp [Modules.hits, loaded, (validateCodeMatch_iff _ _).mpr window] at miss

theorem enterMultipass_starts (cfg : Config) (loads : Bool) (ok : vm.modules.Ok) :
    Starts vm.modules.modCounter req vm (vm.enterMultipass cfg loads req) := by
  unfold enterMultipass
  split
  · rename_i noCode
    exact ⟨ok, .refl _, fun deep => absurd noCode.1 deep.ne', fun _ _ => rfl, nofun⟩
  split
  · exact enterInterp_starts loads req ok le_rfl fun _ mem => by cases mem
  unfold find
  cases h : vm.modules.findModuleCached vm.isModuleInUse loads req with
  | mk r c' =>
    obtain ⟨ok', keeps, stale, found⟩ := Modules.find_spec vm.isModuleInUse loads req ok h
    cases r with
    | none =>
      exact ⟨ok', keeps.mono fun _ k => k.2, fun _ => stale, fun _ => modOf_withModules vm c',
        nofun⟩
    | some id =>
      have guards := newGuards_guardOf (le_refl vm.modules.modCounter) ok' (found id rfl)
      simp only
      split
      · -- the interpreter looks the module up again, in what the first lookup has left
        obtain ⟨ok'', keeps', -, failed, entered⟩ :=
          @enterInterp_starts { vm with modules := c' } _ _ loads req ok' keeps.counter guards
        refine ⟨ok'', (keeps.mono fun _ k => k.2).trans (keeps'.mono fun i k => ?_),
          fun _ i gone => ?_, fun no slot => ?_, fun a some => ?_⟩
        · exact ⟨k.1, k.2.1, not_stale_of_found (found id rfl) i⟩
        · exact keeps'.gone ((ok.lt gone.2.1).trans_le keeps.counter) (stale i gone)
        · rw [failed no, modOf_withModules]
        · obtain ⟨asked, code, entry, transient, guards, holds, others, fits, own, apart⟩ :=
            entered a some
          refine ⟨asked, code, entry, transient, guards, holds, fun slot ne => ?_, fits, own,
            fun slot d fit lt used => ?_⟩
          · rw [others slot ne, modOf_withModules]
          · exact apart slot d fit lt (by rwa [modOf_withModules])
      · exact starts_of_instance le_rfl ok' keeps stale (found id rfl) guards
          (sameMods_pushMessage _ _ _) (fun _ _ _ => nofun)

/-- **What starting a call does**, in either mode. -/
theorem enter_starts (cfg : Config) (mode : Mode) (loads : Bool) (ok : vm.modules.Ok) :
    Starts vm.modules.modCounter req vm (vm.enter cfg mode loads req) := by
  cases mode with
  | interp => exact enterInterp_starts loads req ok le_rfl fun _ mem => by cases mem
  | multipass => exact enterMultipass_starts cfg loads ok

end Found

end State

end Dtvm.Vm
