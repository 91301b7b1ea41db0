import Dtvm.Vm.Running

/-!
# The recency list and its iterators

`Modules` has a key where `AddrCache` has an iterator into `LRUOrder`. Here the list has nodes, an entry points at
one, and `findModuleCached` splices and erases nodes by what the entry points at. `Linked.modules` forgets the
nodes, and as long as entries and nodes belong together (`Links`) the two lookups are the same. A lookup keeps this
(`find_refines`), so it holds after every lookup of every history (`bookkeeping`).

The clock and `lastReturn` record when an entry was last returned. No decision is taken on them.
-/

namespace Dtvm.Vm

open Effect

/-- A node of `LRUOrder`. -/
structure Node where
  id : Nat
  key : Key

/-- `Modules` with the nodes of `LRUOrder` (most recent first); an entry is a module and an iterator. -/
structure Linked where
  loaded : ModId → Option Module
  addrCache : AList fun _ : Key => ModId × Nat
  lruOrder : List Node
  modCounter : Nat
  nodeCounter : Nat
  clock : Nat
  lastReturn : Key → Nat

def entryModule : (Σ _ : Key, ModId × Nat) → Σ _ : Key, ModId := Sigma.map id fun _ e => e.1

def entryModules (s : AList fun _ : Key => ModId × Nat) : AList fun _ : Key => ModId :=
  ⟨s.entries.map entryModule, by
    have keys := s.nodupKeys
    rw [List.NodupKeys, List.keys] at keys ⊢
    rwa [List.map_map]⟩

section EntryModules

variable (s : AList fun _ : Key => ModId × Nat) (k : Key)

theorem lookup_entryModules : (entryModules s).lookup k = (s.lookup k).map (·.1) := List.dlookup_map₂ k

theorem map_kerase (l : List (Σ _ : Key, ModId × Nat)) :
    (l.kerase k).map entryModule = (l.map entryModule).kerase k := by
  rw [List.kerase, List.kerase, List.eraseP_map]
  rfl

theorem entryModules_erase : entryModules (s.erase k) = (entryModules s).erase k := AList.ext (map_kerase k _)

theorem entryModules_insert (e : ModId × Nat) : entryModules (s.insert k e) = (entryModules s).insert k e.1 :=
  AList.ext (congrArg (List.cons _) (map_kerase k _))

end EntryModules

namespace Linked

def empty : Linked := ⟨fun _ => none, ∅, [], 0, 0, 0, fun _ => 0⟩

def modules (c : Linked) : Modules := ⟨c.loaded, entryModules c.addrCache, c.lruOrder.map (·.key), c.modCounter⟩

/-- `loadEVMModule` under the next name. -/
def load (loads : Bool) (req : Request) (c : Linked) : Option ModId × Linked :=
  let r := c.modules.load loads req
  (r.1, { c with loaded := r.2.loaded, modCounter := r.2.modCounter })

def returned (k : Key) (c : Linked) : Linked :=
  { c with clock := c.clock + 1, lastReturn := fun k' => if k' = k then c.clock else c.lastReturn k' }

/-- Unload an entry's module and drop the entry, leaving the given nodes. -/
def dropEntry (k : Key) (id : ModId) (order : List Node) (c : Linked) : Linked :=
  { c with loaded := (c.modules.unload id).loaded, addrCache := c.addrCache.erase k, lruOrder := order }

def evictLoop (inUse : ModId → Bool) : List Node → Linked → Linked
  | [], c => c
  | x :: xs, c =>
    if c.addrCache.entries.length ≥ Modules.maxModuleCacheSize then
      match c.addrCache.lookup x.key with
      | some e => if inUse e.1 then c else evictLoop inUse xs (c.dropEntry x.key e.1 c.lruOrder.dropLast)
      | none => evictLoop inUse xs { c with lruOrder := c.lruOrder.dropLast }
    else c

/-- The cold path: make room, load, push a node to the front and enter the module. -/
def loadCached (inUse : ModId → Bool) (loads : Bool) (req : Request) (c : Linked) : Option ModId × Linked :=
  match (evictLoop inUse c.lruOrder.reverse c).load loads req with
  | (none, c) => (none, c)
  | (some id, c) =>
    (some id, returned req.key { c with
      lruOrder := ⟨c.nodeCounter, req.key⟩ :: c.lruOrder
      addrCache := c.addrCache.insert req.key (id, c.nodeCounter)
      nodeCounter := c.nodeCounter + 1 })

/-- `findModuleCached`: a hit splices the node that the entry points at to the front, an entry whose code does not
match goes with the node it points at. -/
def findModuleCached (inUse : ModId → Bool) (loads : Bool) (req : Request) (c : Linked) : Option ModId × Linked :=
  if req.cacheable = false then c.load loads req
  else match c.addrCache.lookup req.key with
    | none => c.loadCached inUse loads req
    | some (id, n) =>
      let others := c.lruOrder.filter (·.id != n)
      if c.modules.hits req id then
        (some id, returned req.key { c with lruOrder := (c.lruOrder.find? (·.id == n)).toList ++ others })
      else (c.dropEntry req.key id others).loadCached inUse loads req

/-- **Entries and nodes**: an entry points at a node with its key, a node belongs to the entry of its key, no node
is twice in the list, and what comes first was returned last. -/
structure Links (c : Linked) : Prop where
  points : ∀ {k id n}, c.addrCache.lookup k = some (id, n) → ⟨n, k⟩ ∈ c.lruOrder
  owned : ∀ x ∈ c.lruOrder, ∃ id, c.addrCache.lookup x.key = some (id, x.id)
  ordered : c.lruOrder.Pairwise fun x y => x.id ≠ y.id ∧ c.lastReturn y.key < c.lastReturn x.key
  past : ∀ x ∈ c.lruOrder, x.id < c.nodeCounter ∧ c.lastReturn x.key < c.clock

variable {c : Linked} {k : Key} {id : ModId} {n : Nat} {order : List Node}

theorem links_empty : empty.Links := ⟨nofun, nofun, .nil, nofun⟩

namespace Links

variable (h : c.Links)

include h

theorem eq_of_id {x y : Node} (hx : x ∈ c.lruOrder) (hy : y ∈ c.lruOrder) (same : x.id = y.id) : x = y :=
  List.inj_on_of_nodup_map (List.pairwise_map.mpr (h.ordered.imp And.left)) hx hy same

theorem keys_nodup : (c.lruOrder.map (·.key)).Nodup :=
  List.pairwise_map.mpr (h.ordered.imp fun lt same => absurd lt.2 (by rw [same]; exact Nat.lt_irrefl _))

theorem id_iff (entry : c.addrCache.lookup k = some (id, n)) {x : Node} (mem : x ∈ c.lruOrder) :
    x.id = n ↔ x.key = k := by
  constructor
  · intro same
    rw [h.eq_of_id mem (h.points entry) same]
  · intro same
    obtain ⟨id', owner⟩ := h.owned x mem
    rw [same, entry] at owner
    exact (Prod.ext_iff.mp (Option.some.inj owner)).2.symm

theorem remove (loaded : ModId → Option Module) (sub : order.Sublist c.lruOrder)
    (keeps : ∀ x ∈ c.lruOrder, x ∈ order ↔ x.key ≠ k) :
    Links { c with loaded := loaded, addrCache := c.addrCache.erase k, lruOrder := order } where
  points {k' _ _} entry := by
    by_cases same : k' = k
    · rw [same, AList.lookup_erase] at entry
      cases entry
    · rw [AList.lookup_erase_ne same] at entry
      exact (keeps _ (h.points entry)).mpr same
  owned x mem := by
    have there := sub.subset mem
    rw [AList.lookup_erase_ne ((keeps x there).mp mem)]
    exact h.owned x there
  ordered := h.ordered.sublist sub
  past x mem := h.past x (sub.subset mem)

theorem push {s : AList fun _ : Key => ModId × Nat} {counter : Nat}
    (new : ∀ x ∈ c.lruOrder, x.id ≠ n ∧ x.key ≠ k) (here : s.lookup k = some (id, n))
    (others : ∀ k' ≠ k, s.lookup k' = c.addrCache.lookup k') (lt : n < counter) (le : c.nodeCounter ≤ counter) :
    (returned k { c with
      addrCache := s, lruOrder := ⟨n, k⟩ :: c.lruOrder, nodeCounter := counter }).Links where
  points {k' _ _} entry := by
    change s.lookup k' = _ at entry
    by_cases same : k' = k
    · rw [same, here] at entry
      cases entry
      exact same ▸ List.mem_cons_self
    · rw [others k' same] at entry
      exact List.mem_cons_of_mem _ (h.points entry)
  owned x mem := by
    obtain rfl | mem := List.mem_cons.mp mem
    · exact ⟨id, here⟩
    · obtain ⟨id', entry⟩ := h.owned x mem
      exact ⟨id', (others _ (new x mem).2).trans entry⟩
  ordered := by
    refine .cons (fun x mem => ⟨(new x mem).1.symm, ?_⟩) ((List.Pairwise.and_mem.mp h.ordered).imp ?_)
    · show (if x.key = k then _ else _) < if k = k then c.clock else _
      rw [if_neg (new x mem).2, if_pos rfl]
      exact (h.past x mem).2
    · rintro x y ⟨hx, hy, ne, lt⟩
      refine ⟨ne, ?_⟩
      show (if y.key = k then _ else _) < if x.key = k then _ else _
      rwa [if_neg (new y hy).2, if_neg (new x hx).2]
  past x mem := by
    obtain rfl | mem := List.mem_cons.mp mem
    · refine ⟨lt, ?_⟩
      show (if k = k then c.clock else _) < c.clock + 1
      rw [if_pos rfl]
      exact Nat.lt_succ_self _
    · refine ⟨Nat.lt_of_lt_of_le (h.past x mem).1 le, ?_⟩
      show (if x.key = k then _ else _) < c.clock + 1
      rw [if_neg (new x mem).2]
      exact Nat.lt_succ_of_lt (h.past x mem).2

end Links

/-! ## The lookup without the nodes -/

variable {inUse : ModId → Bool} {loads : Bool} {req : Request}

theorem modules_dropEntry : (c.dropEntry k id order).modules = c.modules.dropEntry k id (order.map (·.key)) := by
  rw [modules, Modules.dropEntry, dropEntry, entryModules_erase]
  rfl

theorem lookup_modules {e : Option (ModId × Nat)} (entry : c.addrCache.lookup k = e) :
    c.modules.addrCache.lookup k = e.map (·.1) := entry ▸ lookup_entryModules _ _

theorem evictLoop_links (inUse : ModId → Bool) : ∀ {xs : List Node} {c : Linked}, c.Links →
    c.lruOrder.reverse = xs → (evictLoop inUse xs c).Links ∧
      (evictLoop inUse xs c).modules = c.modules.evictLoop inUse (xs.map (·.key)) ∧
      ∀ k, c.addrCache.lookup k = none → (evictLoop inUse xs c).addrCache.lookup k = none
  | [], c, h, _ => ⟨h, rfl, fun _ absent => absent⟩
  | x :: xs, c, h, back => by
    have order : c.lruOrder = xs.reverse ++ [x] := by
      rw [← List.reverse_reverse c.lruOrder, back, List.reverse_cons]
    have last : c.lruOrder.dropLast = xs.reverse := by rw [order, List.dropLast_concat]
    have size : c.modules.addrCache.entries.length = c.addrCache.entries.length := List.length_map _
    obtain ⟨id, entry⟩ := h.owned x (by rw [order]; exact List.mem_append_right _ List.mem_cons_self)
    rw [evictLoop, List.map_cons, Modules.evictLoop, size, entry, lookup_modules entry]
    by_cases full : c.addrCache.entries.length ≥ Modules.maxModuleCacheSize
    · rw [if_pos full, if_pos full]
      dsimp only [Option.map_some]
      by_cases used : inUse id = true
      · rw [if_pos used, if_pos used]
        exact ⟨h, rfl, fun _ absent => absent⟩
      · have keeps : ∀ y ∈ c.lruOrder, y ∈ c.lruOrder.dropLast ↔ y.key ≠ x.key := by
          have distinct := h.keys_nodup
          rw [order, List.map_append, List.nodup_append] at distinct
          intro y mem
          rw [last]
          rw [order, List.mem_append, List.mem_singleton] at mem
          constructor
          · intro mem'
            exact distinct.2.2 _ (List.mem_map_of_mem mem') _ List.mem_cons_self
          · intro ne
            exact mem.resolve_right fun same => ne (congrArg Node.key same)
        obtain ⟨links, same, absent⟩ := evictLoop_links inUse
          (h.remove (c.modules.unload id).loaded (List.dropLast_sublist _) keeps)
          (by rw [last, List.reverse_reverse])
        rw [if_neg used, if_neg used]
        refine ⟨links, same.trans (congrArg _ (modules_dropEntry.trans ?_)), fun k none => absent k ?_⟩
        · rw [List.map_dropLast]
          rfl
        · by_cases here : k = x.key
          · rw [here]
            exact AList.lookup_erase _ _
          · exact (AList.lookup_erase_ne here).trans none
    · rw [if_neg full, if_neg full]
      exact ⟨h, rfl, fun _ absent => absent⟩

theorem load_links (loads : Bool) (req : Request) (h : c.Links) : (c.load loads req).2.Links :=
  ⟨h.points, h.owned, h.ordered, h.past⟩

theorem load_modules : ((c.load loads req).1, (c.load loads req).2.modules) = c.modules.load loads req := by
  rw [load, Modules.load]
  cases loads <;> rfl

structure Refines (r : Option ModId × Linked) (r' : Option ModId × Modules) : Prop where
  links : r.2.Links
  same : (r.1, r.2.modules) = r'

theorem loadCached_refines (h : c.Links) (absent : c.addrCache.lookup req.key = none) :
    Refines (c.loadCached inUse loads req) (c.modules.loadCached inUse loads req) := by
  obtain ⟨links, same, none⟩ := evictLoop_links inUse h rfl
  have none := none _ absent
  rw [loadCached, Modules.loadCached]
  have back : c.modules.lru.reverse = c.lruOrder.reverse.map (·.key) := List.map_reverse.symm
  rw [back, ← same, ← load_modules]
  generalize evictLoop inUse c.lruOrder.reverse c = c at links none
  have links' := load_links loads req links
  have none' : (c.load loads req).2.addrCache.lookup req.key = Option.none := none
  generalize c.load loads req = r at links' none'
  obtain ⟨id, c⟩ := r
  cases id with
  | none => exact ⟨links', rfl⟩
  | some id =>
    refine ⟨links'.push (fun x mem => ⟨?_, fun same => ?_⟩) (AList.lookup_insert _)
      (fun _ ne => AList.lookup_insert_ne ne) (Nat.lt_succ_self _) (Nat.le_succ _), ?_⟩
    · exact Nat.ne_of_lt (links'.past x mem).1
    · obtain ⟨_, entry⟩ := links'.owned x mem
      rw [same, none'] at entry
      cases entry
    · exact congrArg (fun s => (some id, Modules.mk c.loaded s (req.key :: c.lruOrder.map (·.key)) c.modCounter))
        (entryModules_insert _ _ _)

/-- **A lookup** keeps entries and nodes together, and answers what it would without them. -/
theorem find_refines (inUse : ModId → Bool) (loads : Bool) (req : Request) (h : c.Links) :
    Refines (c.findModuleCached inUse loads req) (c.modules.findModuleCached inUse loads req) := by
  rw [findModuleCached, Modules.findModuleCached]
  by_cases transient : req.cacheable = false
  · rw [if_pos transient, if_pos transient]
    exact ⟨load_links _ _ h, load_modules⟩
  rw [if_neg transient, if_neg transient]
  cases entry : c.addrCache.lookup req.key with
  | none =>
    rw [lookup_modules entry]
    exact loadCached_refines h entry
  | some e =>
    obtain ⟨id, n⟩ := e
    rw [lookup_modules entry]
    have keeps : ∀ x ∈ c.lruOrder, x ∈ c.lruOrder.filter (·.id != n) ↔ x.key ≠ req.key := by
      intro x mem
      rw [List.mem_filter, bne_iff_ne, ne_eq, h.id_iff entry mem]
      exact ⟨And.right, .intro mem⟩
    have others : (c.lruOrder.filter (·.id != n)).map (·.key) = c.modules.lru.erase req.key := by
      have keys : c.modules.lru.Nodup := h.keys_nodup
      rw [keys.erase_eq_filter]
      show _ = (c.lruOrder.map (·.key)).filter _
      rw [List.filter_map]
      refine congrArg _ (List.filter_congr fun x mem => ?_)
      exact Bool.eq_iff_iff.mpr (by simpa using not_congr (h.id_iff entry mem))
    dsimp only [Option.map_some]
    by_cases hit : c.modules.hits req id = true
    · have node : c.lruOrder.find? (·.id == n) = some ⟨n, req.key⟩ := by
        cases found : c.lruOrder.find? (·.id == n) with
        | none => exact absurd (List.find?_eq_none.mp found _ (h.points entry)) (by simp)
        | some x =>
          have same := List.find?_some found
          exact congrArg some (h.eq_of_id (List.mem_of_find?_eq_some found) (h.points entry) (by simpa using same))
      rw [if_pos hit, if_pos hit, node]
      refine ⟨(h.remove (k := req.key) c.loaded List.filter_sublist keeps).push (fun x mem => ?_) entry
        (fun _ ne => (AList.lookup_erase_ne ne).symm) (h.past _ (h.points entry)).1 le_rfl, ?_⟩
      · obtain ⟨mem, ne⟩ := List.mem_filter.mp mem
        exact ⟨by simpa using ne, fun same => by simp [(h.id_iff entry mem).mpr same] at ne⟩
      · rw [← others]
        rfl
    · rw [if_neg hit, if_neg hit, ← others, ← modules_dropEntry]
      exact loadCached_refines (h.remove _ List.filter_sublist keeps) (AList.lookup_erase _ _)

end Linked

/-! ## Along a history -/

def Modules.SameCache (c c' : Modules) : Prop :=
  c'.addrCache = c.addrCache ∧ c'.lru = c.lru ∧ c'.modCounter = c.modCounter

theorem Modules.sameCache_unloadAll : ∀ (ids : List ModId) (c : Modules), c.SameCache (c.unloadAll ids)
  | [], _ => ⟨rfl, rfl, rfl⟩
  | id :: ids, c => Modules.sameCache_unloadAll ids (c.unload id)

/-- The calls of `findModuleCached` that an event makes: multipass mode looks up again for the interpreter. -/
def Sys.lookups (cfg : Config) (σ : Sys) : Event → Nat
  | .enter .interp _ _ => 1
  | .enter .multipass req loads =>
    if req.msg.depth = 0 ∧ req.emptyCall ∧ isLikelyPrecompile req.msg.recipient = false then 0
    else if req.msg.depth > 0 ∧ req.emptyCall then 1
    else if (σ.vm.find loads req).1.any fun id =>
      ((σ.vm.find loads req).2.modules.loaded id).any fun m => cfg.fallback m.code.bytes then 2
    else 1
  | _ => 0

def Sys.lookup (σ : Sys) : Event → Linked → Linked
  | .enter _ req loads, c => (c.findModuleCached σ.vm.isModuleInUse loads req).2
  | _, c => c

/-- The cache with its nodes after a history. What an event leaves loaded is told by the VM: the end of a call
unloads modules that are not cached. -/
def Linked.follow (cfg : Config) : Sys → List Event → Linked → Linked
  | _, [], c => c
  | σ, e :: es, c =>
    match σ.step cfg e with
    | none => c
    | some σ' => follow cfg σ' es { (σ.lookup e)^[σ.lookups cfg e] c with loaded := σ'.vm.modules.loaded }

section Follow

variable {cfg : Config} {σ σ' : Sys} {e : Event} {c : Linked} {vm : State} {loads : Bool} {req : Request}

theorem enterInterp_sameCache (guards : List ModId) :
    (vm.find loads req).2.modules.SameCache (vm.enterInterp loads req guards).2.modules := by
  rw [State.enterInterp]
  generalize vm.find loads req = found
  obtain ⟨id, vm⟩ := found
  cases id with
  | none => exact Modules.sameCache_unloadAll _ _
  | some id =>
    have inst := (State.getOrCreateInstance_spec vm id req.rev req.msg.depth rfl).1.1
    rw [(State.sameMods_openCtx _ _ _ _ _).1, (State.sameMods_pushMessage _ _ _).1, inst]
    exact ⟨rfl, rfl, rfl⟩

theorem lookup_iterate (h : c.Links) (same : c.modules = σ.vm.modules) (n : Nat) :
    ((σ.lookup e)^[n] c).Links ∧ (σ.vm.modules.Ok → ((σ.lookup e)^[n] c).modules.Ok) := by
  induction n with
  | zero => exact ⟨h, fun ok => same ▸ ok⟩
  | succ n ih =>
    rw [Function.iterate_succ_apply']
    generalize (σ.lookup e)^[n] c = c at ih
    cases e with
    | enter mode req loads =>
      have refines := Linked.find_refines σ.vm.isModuleInUse loads req ih.1
      refine ⟨refines.links, fun ok => ?_⟩
      have here := (Modules.find_spec σ.vm.isModuleInUse loads req (ih.2 ok) rfl).1
      rwa [← refines.same] at here
    | _ => exact ih

theorem find_step (vm : State) (loads : Bool) (req : Request) (h : c.Links) (same : c.modules = vm.modules) :
    (c.findModuleCached vm.isModuleInUse loads req).2.modules = (vm.find loads req).2.modules := by
  rw [State.find, ← same, ← (Linked.find_refines _ _ _ h).same]

theorem follow_enter {mode : Mode} (h : c.Links) (same : c.modules = σ.vm.modules) :
    ((σ.lookup (.enter mode req loads))^[σ.lookups cfg (.enter mode req loads)] c).modules.SameCache
      (σ.vm.enter cfg mode loads req).2.modules := by
  have once : ((σ.lookup (.enter mode req loads))^[1] c).modules = (σ.vm.find loads req).2.modules :=
    find_step σ.vm loads req h same
  cases mode with
  | interp =>
    show (Linked.modules ((Sys.lookup _ _)^[1] _)).SameCache _
    rw [once]
    exact enterInterp_sameCache []
  | multipass =>
    rw [Sys.lookups, State.enter, State.enterMultipass]
    split
    · exact same ▸ ⟨rfl, rfl, rfl⟩
    split
    · rw [once]
      exact enterInterp_sameCache []
    have twice : ((σ.lookup (.enter .multipass req loads))^[2] c).modules =
        ((σ.vm.find loads req).2.find loads req).2.modules :=
      find_step (σ.vm.find loads req).2 loads req (Linked.find_refines _ _ _ h).links once
    generalize σ.vm.find loads req = found at once twice
    obtain ⟨id, vm⟩ := found
    cases id with
    | none =>
      exact once ▸ ⟨rfl, rfl, rfl⟩
    | some id =>
      dsimp only [Option.any_some]
      split
      · rw [twice]
        exact enterInterp_sameCache _
      · rw [once, (State.sameMods_pushMessage _ _ _).1,
          (State.getOrCreateInstance_spec vm id req.rev req.msg.depth rfl).1.1]
        exact ⟨rfl, rfl, rfl⟩

theorem follow_step (h : c.Links) (same : c.modules = σ.vm.modules) (step : σ.step cfg e = some σ') :
    ((σ.lookup e)^[σ.lookups cfg e] c).modules.SameCache σ'.vm.modules := by
  obtain ⟨mode, req, loads, rfl, enters⟩ | other := Sys.step_cases step
  · rw [enters.vm]
    exact follow_enter h same
  cases e with
  | enter mode req loads =>
    rw [(Sys.step_enter_iff.mp step).1.vm]
    exact follow_enter h same
  | _ =>
    show c.modules.SameCache _
    rw [same]
    obtain ⟨a, a', outer, works⟩ | ⟨a, ends⟩ := other
    · exact works.mods.1 ▸ ⟨rfl, rfl, rfl⟩
    · exact ends.modules ▸ Modules.sameCache_unloadAll _ _

theorem modules_withLoaded {m : Modules} (same : c.modules.SameCache m) :
    Linked.modules { c with loaded := m.loaded } = m := by
  obtain ⟨loaded, addrCache, lru, modCounter⟩ := m
  obtain ⟨rfl, rfl, rfl⟩ := same
  rfl

theorem follow_links : ∀ {events : List Event} {σ : Sys} {c : Linked}, c.Links → c.modules = σ.vm.modules →
    (system cfg).run σ events = some σ' →
      (Linked.follow cfg σ events c).Links ∧ (Linked.follow cfg σ events c).modules = σ'.vm.modules
  | [], _, _, h, same, run => ⟨h, Option.some.inj run ▸ same⟩
  | e :: events, σ, c, h, same, run => by
    obtain ⟨σ₁, step, run⟩ := Option.bind_eq_some_iff.mp run
    have step : σ.step cfg e = some σ₁ := step
    have links := (lookup_iterate (e := e) h same (σ.lookups cfg e)).1
    rw [Linked.follow, step]
    exact follow_links ⟨links.points, links.owned, links.ordered, links.past⟩
      (modules_withLoaded (follow_step h same step)) run

/-- **After every lookup of every history** the map and the recency list are in one-to-one correspondence, every
cached module is loaded, and the list is in the order of the last return. -/
theorem bookkeeping (cfg : Config) {events : List Event} {σ : Sys}
    (reached : (system cfg).run (system cfg).init events = some σ) :
    (Linked.follow cfg (system cfg).init events .empty).modules = σ.vm.modules ∧ ∀ e, ∀ n ≤ σ.lookups cfg e,
      let c := (σ.lookup e)^[n] (Linked.follow cfg (system cfg).init events .empty)
      c.Links ∧ ∀ k id i, c.addrCache.lookup k = some (id, i) → c.loaded id ≠ none := by
  obtain ⟨links, same⟩ := follow_links (c := .empty) Linked.links_empty rfl reached
  refine ⟨same, fun e n _ => ?_⟩
  obtain ⟨links, ok⟩ := lookup_iterate (e := e) links same n
  refine ⟨links, fun k id i entry => ?_⟩
  obtain ⟨m, loaded, -⟩ := (ok (Sys.Base.reached reached).modules).cached (Linked.lookup_modules entry)
  exact ne_of_eq_of_ne loaded nofun

/-- The next lookup after one call, of code that replaces that of the first. -/
theorem bookkeeping_afterOne :
    let c := (sysAfterOne.lookup (.enter .interp (.plain 0 ⟨[0x00], by decide⟩) true))^[1]
      (Linked.follow .plain (system .plain).init afterOne .empty)
    c.Links ∧ ∀ k id i, c.addrCache.lookup k = some (id, i) → c.loaded id ≠ none :=
  (bookkeeping .plain sysAfterOne_reached).2 _ 1 (Nat.le_refl 1)

end Follow

end Dtvm.Vm
