import Dtvm.Evm.Cache
import Mathlib.Data.List.AList

/-!
# The module cache

`findModuleCached` of `dt_evmc_vm.cpp`: the runtime's loaded modules, the map from code address and revision to a
module, and the recency list. A module is known by the number its name was made of (`ModCounter`). The map's
iterators into the recency list stand for the key they point at. `LastCodePtr`, `LastCodeSize` and `L0Mod` are
never read to decide anything, and are left out.

A load can fail; whether it does is an argument. `find_spec` says what a lookup may do to the loaded modules: only
an entry whose code no longer matches, and entries no instance holds, go away.
-/

namespace Dtvm.Vm

/-- `EVMModule`: the code it was loaded from and the revision it was loaded for. -/
structure Module where
  code : Bytecode
  rev : Revision

abbrev ModId := Nat

/-- `CodeAddrRevKey`. -/
structure Key where
  addr : Address
  rev : Revision
deriving DecidableEq

/-- What `execute()` is given. -/
structure Request where
  rev : Revision
  msg : Message
  code : Bytecode

def Request.key (r : Request) : Key := ⟨r.msg.codeAddress, r.rev⟩

/-- `shouldUsePersistentModuleCache`: init code is loaded for one call. -/
def Request.cacheable (r : Request) : Bool := r.msg.kind != .create && r.msg.kind != .create2

/-! ## Matching code -/

/-- `validateCodeMatch`: the lengths, the first 256 bytes and the last 256 bytes. -/
def validateCodeMatch (code modCode : Bytes) : Bool :=
  if code.length ≠ modCode.length then false
  else if code.length = 0 then true
  else
    let headLen := min code.length 256
    if code.take headLen ≠ modCode.take headLen then false
    else if code.length > 256 then
      let tailLen := min code.length 256
      let tailOffset := code.length - tailLen
      decide ((code.drop tailOffset).take tailLen = (modCode.drop tailOffset).take tailLen)
    else true

/-- The codes have the same length and agree in their first and in their last 256 bytes. -/
def SameWindow (a b : Bytes) : Prop :=
  a.length = b.length ∧ a.take 256 = b.take 256 ∧
    a.drop (a.length - 256) = b.drop (b.length - 256)

namespace SameWindow

variable {a b c : Bytes}

theorem refl (a : Bytes) : SameWindow a a := ⟨rfl, rfl, rfl⟩

theorem symm (h : SameWindow a b) : SameWindow b a := ⟨h.1.symm, h.2.1.symm, h.2.2.symm⟩

theorem trans (h : SameWindow a b) (h' : SameWindow b c) : SameWindow a c :=
  ⟨h.1.trans h'.1, h.2.1.trans h'.2.1, h.2.2.trans h'.2.2⟩

theorem eq_of_short (h : SameWindow a b) (short : a.length ≤ 512) : a = b := by
  obtain ⟨length, head, tail⟩ := h
  have rest : a.drop 256 = b.drop 256 := by
    have := congrArg (List.drop (256 - (a.length - 256))) tail
    rw [List.drop_drop, List.drop_drop, ← length] at this
    rwa [show a.length - 256 + (256 - (a.length - 256)) = 256 by omega] at this
  rw [← List.take_append_drop 256 a, head, rest, List.take_append_drop]

end SameWindow

theorem validateCodeMatch_iff (a b : Bytes) : validateCodeMatch a b = true ↔ SameWindow a b := by
  unfold validateCodeMatch SameWindow
  by_cases length : a.length = b.length
  · rcases Nat.eq_zero_or_pos a.length with zero | pos
    · have ha := List.eq_nil_of_length_eq_zero zero
      have hb := List.eq_nil_of_length_eq_zero (length ▸ zero)
      simp [ha, hb]
    · rcases Nat.lt_or_ge 256 a.length with long | short
      · have tail : ∀ l : Bytes, l.length = a.length →
            (l.drop (a.length - 256)).take 256 = l.drop (a.length - 256) := fun l hl =>
          List.take_of_length_le (by rw [List.length_drop]; omega)
        simp [← length, Nat.ne_of_gt pos, Nat.min_eq_right long.le, long, tail a rfl, tail b length.symm]
      · have all : ∀ l : Bytes, l.length = a.length → l.take 256 = l := fun l hl =>
          List.take_of_length_le (by omega)
        simp [← length, Nat.ne_of_gt pos, Nat.min_eq_left short, Nat.not_lt.mpr short,
          Nat.sub_eq_zero_of_le short, all a rfl, all b length.symm, List.take_of_length_le]
  · simp [length]

/-! ## Looking a module up -/

/-- `EVMModulePool`, `AddrCache`, `LRUOrder` (most recent first) and `ModCounter`. -/
structure Modules where
  loaded : ModId → Option Module
  addrCache : AList fun _ : Key => ModId
  lru : List Key
  modCounter : Nat

namespace Modules

def empty : Modules := ⟨fun _ => none, ∅, [], 0⟩

def maxModuleCacheSize : Nat := 4096

/-- `unloadEVMModule`. -/
def unload (id : ModId) (c : Modules) : Modules :=
  { c with loaded := fun i => if i = id then none else c.loaded i }

/-- The end of a call's `ModuleGuard`s. -/
def unloadAll : List ModId → Modules → Modules
  | [], c => c
  | id :: ids, c => unloadAll ids (c.unload id)

/-- `loadEVMModule` under the next name. -/
def load (loads : Bool) (req : Request) (c : Modules) : Option ModId × Modules :=
  if loads then
    (some c.modCounter, { c with
      loaded := fun i => if i = c.modCounter then some ⟨req.code, req.rev⟩ else c.loaded i
      modCounter := c.modCounter + 1 })
  else (none, { c with modCounter := c.modCounter + 1 })

/-- Unload an entry's module and drop the entry, leaving the given recency list. -/
def dropEntry (k : Key) (id : ModId) (lru : List Key) (c : Modules) : Modules :=
  { loaded := (c.unload id).loaded, addrCache := c.addrCache.erase k, lru := lru,
    modCounter := c.modCounter }

def evictLoop (inUse : ModId → Bool) : List Key → Modules → Modules
  | [], c => c
  | k :: ks, c =>
    if c.addrCache.entries.length ≥ maxModuleCacheSize then
      match c.addrCache.lookup k with
      | some id =>
        if inUse id then c
        else evictLoop inUse ks (c.dropEntry k id c.lru.dropLast)
      | none => evictLoop inUse ks { c with lru := c.lru.dropLast }
    else c

def loadCached (inUse : ModId → Bool) (loads : Bool) (req : Request) (c : Modules) :
    Option ModId × Modules :=
  match (evictLoop inUse c.lru.reverse c).load loads req with
  | (none, c) => (none, c)
  | (some id, c) =>
    (some id, { c with lru := req.key :: c.lru, addrCache := c.addrCache.insert req.key id })

def hits (req : Request) (c : Modules) (id : ModId) : Bool :=
  match c.loaded id with
  | some m => validateCodeMatch req.code.bytes m.code.bytes
  | none => false

/-- `findModuleCached`. `inUse` is `isModuleInUse`. -/
def findModuleCached (inUse : ModId → Bool) (loads : Bool) (req : Request) (c : Modules) :
    Option ModId × Modules :=
  if req.cacheable = false then c.load loads req
  else match c.addrCache.lookup req.key with
    | none => c.loadCached inUse loads req
    | some id =>
      if c.hits req id then (some id, { c with lru := req.key :: c.lru.erase req.key })
      else (c.dropEntry req.key id (c.lru.erase req.key)).loadCached inUse loads req

/-! ## What a lookup keeps -/

/-- What holds of the modules between lookups: numbers are given out in order, and an entry's
module is loaded, for the entry's revision and under no other key. -/
structure Ok (c : Modules) : Prop where
  fresh : ∀ {id m}, c.loaded id = some m → id < c.modCounter
  cached : ∀ {k id}, c.addrCache.lookup k = some id → ∃ m, c.loaded id = some m ∧ m.rev = k.rev
  inj : ∀ {k k' id}, c.addrCache.lookup k = some id → c.addrCache.lookup k' = some id → k = k'

theorem ok_empty : empty.Ok where
  fresh h := by cases h
  cached h := by simp [empty] at h
  inj h := by simp [empty] at h

theorem Ok.lt {c : Modules} (ok : c.Ok) {k : Key} {id : ModId}
    (h : c.addrCache.lookup k = some id) : id < c.modCounter := by
  obtain ⟨m, loaded, -⟩ := ok.cached h
  exact ok.fresh loaded

/-- `c'` has come of `c`: the modules of `keep` and their entries are there as they were, and
nothing that was loaded or entered once comes back under its number. -/
structure Keeps (keep : ModId → Prop) (c c' : Modules) : Prop where
  counter : c.modCounter ≤ c'.modCounter
  loaded : ∀ {id m}, keep id → c.loaded id = some m → c'.loaded id = some m
  lookup : ∀ {id k}, keep id → c.addrCache.lookup k = some id → c'.addrCache.lookup k = some id
  gone : ∀ {id}, id < c.modCounter → c.loaded id = none → c'.loaded id = none
  older : ∀ {id k}, id < c.modCounter → c'.addrCache.lookup k = some id →
    c.addrCache.lookup k = some id

namespace Keeps

variable {keep : ModId → Prop} {c c' c'' : Modules}

theorem refl (c : Modules) : Keeps keep c c :=
  ⟨le_rfl, fun _ h => h, fun _ h => h, fun _ h => h, fun _ h => h⟩

theorem trans (h : Keeps keep c c') (h' : Keeps keep c' c'') : Keeps keep c c'' where
  counter := h.counter.trans h'.counter
  loaded k l := h'.loaded k (h.loaded k l)
  lookup k l := h'.lookup k (h.lookup k l)
  gone lt l := h'.gone (lt.trans_le h.counter) (h.gone lt l)
  older lt l := h.older lt (h'.older (lt.trans_le h.counter) l)

theorem mono {keep' : ModId → Prop} (h : Keeps keep c c') (sub : ∀ id, keep' id → keep id) : Keeps keep' c c' where
  counter := h.counter
  loaded k := h.loaded (sub _ k)
  lookup k := h.lookup (sub _ k)
  gone := h.gone
  older := h.older

end Keeps

variable {c : Modules} {k : Key} {id : ModId} {req : Request}

theorem lookup_dropEntry {k' : Key} {id' : ModId} {lru : List Key}
    (h : (c.dropEntry k id lru).addrCache.lookup k' = some id') : k' ≠ k ∧ c.addrCache.lookup k' = some id' := by
  by_cases same : k' = k
  · subst same
    simp [dropEntry] at h
  · exact ⟨same, by simpa [dropEntry, AList.lookup_erase_ne same] using h⟩

theorem keeps_dropEntry (lru : List Key) (entry : c.addrCache.lookup k = some id) :
    Keeps (· ≠ id) c (c.dropEntry k id lru) where
  counter := le_rfl
  loaded ne h := by simpa [dropEntry, unload, ne] using h
  lookup {id' k'} ne h := by
    have other : k' ≠ k := fun same => ne (Option.some.inj (h.symm.trans (same ▸ entry)))
    simpa [dropEntry, AList.lookup_erase_ne other] using h
  gone _ h := by simp [dropEntry, unload, h]
  older _ h := (lookup_dropEntry h).2

theorem ok_dropEntry (lru : List Key) (ok : c.Ok) (entry : c.addrCache.lookup k = some id) :
    (c.dropEntry k id lru).Ok where
  fresh {i m} h := by
    simp only [dropEntry, unload] at h
    split at h
    · cases h
    · exact ok.fresh h
  cached {k' i} h := by
    obtain ⟨ne, old⟩ := lookup_dropEntry h
    obtain ⟨m, loaded, rev⟩ := ok.cached old
    have other : i ≠ id := fun same => ne (ok.inj old (same ▸ entry))
    exact ⟨m, by simpa [dropEntry, unload, other] using loaded, rev⟩
  inj h h' := ok.inj (lookup_dropEntry h).2 (lookup_dropEntry h').2

theorem evictLoop_spec (inUse : ModId → Bool) (ok : c.Ok) (ks : List Key) :
    (evictLoop inUse ks c).Ok ∧ Keeps (inUse · = true) c (evictLoop inUse ks c) ∧
      (evictLoop inUse ks c).modCounter = c.modCounter := by
  induction ks generalizing c with
  | nil => exact ⟨ok, .refl c, rfl⟩
  | cons k ks ih =>
    unfold evictLoop
    split
    · split
      · rename_i id entry
        split
        · exact ⟨ok, .refl c, rfl⟩
        · rename_i unused
          obtain ⟨ok', keeps, counter⟩ := ih (ok_dropEntry c.lru.dropLast ok entry)
          refine ⟨ok', .trans ((keeps_dropEntry _ entry).mono fun i used same => ?_) keeps, counter⟩
          exact unused (same ▸ used)
      · obtain ⟨ok', keeps, counter⟩ := ih (c := { c with lru := c.lru.dropLast })
          ⟨ok.fresh, ok.cached, ok.inj⟩
        exact ⟨ok', ⟨keeps.counter, keeps.loaded, keeps.lookup, keeps.gone, keeps.older⟩, counter⟩
    · exact ⟨ok, .refl c, rfl⟩

theorem Ok.absent_of_older {c' : Modules} {keep : ModId → Prop} (ok : c'.Ok)
    (keeps : Keeps keep c c') (counter : c'.modCounter = c.modCounter)
    (absent : c.addrCache.lookup k = none) : c'.addrCache.lookup k = none := by
  refine Option.eq_none_iff_forall_ne_some.mpr fun id h => ?_
  rw [keeps.older (counter ▸ ok.lt h) h] at absent
  cases absent

/-- What a lookup answers: a module loaded for the request's revision, from code that passes
`validateCodeMatch`; the entry of the request's key, or a new module under no key. -/
structure Found (req : Request) (c c' : Modules) (id : ModId) : Prop where
  loaded : ∃ m, c'.loaded id = some m ∧ m.rev = req.rev ∧ SameWindow req.code.bytes m.code.bytes
  entry : req.cacheable = true → c'.addrCache.lookup req.key = some id
  transient : req.cacheable = false →
    c.modCounter ≤ id ∧ ∀ k, c'.addrCache.lookup k ≠ some id

theorem load_spec (loads : Bool) (req : Request) (ok : c.Ok) :
    (c.load loads req).2.Ok ∧ Keeps (fun _ => True) c (c.load loads req).2 ∧
    (c.load loads req).2.addrCache = c.addrCache ∧ (∀ id, (c.load loads req).1 = some id → id = c.modCounter ∧
      (c.load loads req).2.loaded id = some ⟨req.code, req.rev⟩ ∧ id < (c.load loads req).2.modCounter) := by
  unfold load
  split
  · have old : ∀ {i m}, c.loaded i = some m →
        (if i = c.modCounter then some ⟨req.code, req.rev⟩ else c.loaded i) = some m :=
      fun h => by rw [if_neg (ok.fresh h).ne, h]
    refine ⟨⟨fun {i m} h => ?_, fun h => ?_, ok.inj⟩,
      ⟨Nat.le_succ _, fun _ => old, fun _ h => h, fun lt h => ?_, fun _ h => h⟩, rfl, ?_⟩
    · simp only at h
      split at h
      · rename_i new
        exact new ▸ Nat.lt_succ_self _
      · exact Nat.lt_succ_of_lt (ok.fresh h)
    · obtain ⟨m, loaded, rev⟩ := ok.cached h
      exact ⟨m, old loaded, rev⟩
    · exact (if_neg lt.ne).trans h
    · rintro id ⟨⟩
      exact ⟨rfl, if_pos rfl, Nat.lt_succ_self _⟩
  · exact ⟨⟨fun h => Nat.lt_succ_of_lt (ok.fresh h), ok.cached, ok.inj⟩,
      ⟨Nat.le_succ _, fun _ h => h, fun _ h => h, fun _ h => h, fun _ h => h⟩, rfl,
      fun _ h => by cases h⟩

theorem insert_spec (ok : c.Ok) {m : Module} (loaded : c.loaded id = some m) (rev : m.rev = k.rev)
    (absent : c.addrCache.lookup k = none) (new : ∀ k', c.addrCache.lookup k' ≠ some id) (lru : List Key) :
    Ok { c with lru := lru, addrCache := c.addrCache.insert k id } ∧
      (∀ {k' i}, i ≠ id → ((c.addrCache.insert k id).lookup k' = some i ↔
        c.addrCache.lookup k' = some i)) := by
  -- the new entry is the only one under its number, and hides no other
  have entries : ∀ {k' i}, (c.addrCache.insert k id).lookup k' = some i →
      k' = k ∧ i = id ∨ i ≠ id ∧ c.addrCache.lookup k' = some i := by
    intro k' i h
    by_cases here : k' = k
    · subst here
      rw [AList.lookup_insert] at h
      exact .inl ⟨rfl, (Option.some.inj h).symm⟩
    · rw [AList.lookup_insert_ne here] at h
      exact .inr ⟨fun same => new k' (same ▸ h), h⟩
  refine ⟨⟨ok.fresh, fun {k' i} h => ?_, fun {k₁ k₂ i} h₁ h₂ => ?_⟩, fun {k' i} ne => ?_⟩
  · rcases entries h with ⟨rfl, rfl⟩ | ⟨-, h⟩
    · exact ⟨m, loaded, rev⟩
    · exact ok.cached h
  · rcases entries h₁ with ⟨rfl, rfl⟩ | ⟨ne, h₁⟩
    · rcases entries h₂ with ⟨rfl, -⟩ | ⟨ne, -⟩
      · rfl
      · exact absurd rfl ne
    · rcases entries h₂ with ⟨-, rfl⟩ | ⟨-, h₂⟩
      · exact absurd rfl ne
      · exact ok.inj h₁ h₂
  · refine ⟨fun h => ?_, fun h => ?_⟩
    · rcases entries h with ⟨-, same⟩ | ⟨-, h⟩
      · exact absurd same ne
      · exact h
    · have other : k' ≠ k := fun same => by rw [same, absent] at h; cases h
      rwa [AList.lookup_insert_ne other]

theorem loadCached_spec (inUse : ModId → Bool) (loads : Bool) (ok : c.Ok)
    (cacheable : req.cacheable = true) (absent : c.addrCache.lookup req.key = none) {r : Option ModId × Modules}
    (ran : c.loadCached inUse loads req = r) :
    r.2.Ok ∧ Keeps (inUse · = true) c r.2 ∧ ∀ id, r.1 = some id → Found req c r.2 id := by
  subst ran
  obtain ⟨ok₁, keeps₁, counter₁⟩ := evictLoop_spec inUse ok c.lru.reverse
  obtain ⟨ok₂, keeps₂, same, found⟩ := load_spec loads req ok₁
  have keeps := keeps₁.trans (keeps₂.mono fun _ _ => trivial)
  unfold loadCached
  cases h : (evictLoop inUse c.lru.reverse c).load loads req with
  | mk r c₂ =>
    simp only [h] at ok₂ keeps same found
    cases r with
    | none => exact ⟨ok₂, keeps, fun _ no => by cases no⟩
    | some id =>
      obtain ⟨number, loaded, -⟩ := found id rfl
      have older : ∀ {i}, i < c.modCounter → i ≠ id := fun lt same =>
        (counter₁ ▸ lt).ne (same.trans number)
      obtain ⟨ok₃, entries⟩ := insert_spec (k := req.key) ok₂ loaded rfl
        (same ▸ ok₁.absent_of_older keeps₁ counter₁ absent)
        (fun k' entry => (ok₁.lt (same ▸ entry)).ne number) (req.key :: c₂.lru)
      refine ⟨ok₃, ⟨keeps.counter, keeps.loaded, fun kept entry => ?_, keeps.gone,
        fun lt entry => keeps.older lt ((entries (older lt)).mp entry)⟩, ?_⟩
      · exact (entries (older (ok.lt entry))).mpr (keeps.lookup kept entry)
      · rintro _ ⟨⟩
        exact ⟨⟨_, loaded, rfl, .refl _⟩, fun _ => AList.lookup_insert _,
          fun no => by simp [cacheable] at no⟩

/-- The entry of the request's key does not match the request's code. -/
def Stale (req : Request) (c : Modules) (id : ModId) : Prop :=
  req.cacheable = true ∧ c.addrCache.lookup req.key = some id ∧ c.hits req id = false

/-- **What a lookup does**: the modules in use stay, unless they are stale; a stale one goes. -/
theorem find_spec (inUse : ModId → Bool) (loads : Bool) (req : Request) (ok : c.Ok) {r : Option ModId × Modules}
    (ran : c.findModuleCached inUse loads req = r) : r.2.Ok ∧
    Keeps (fun id => inUse id = true ∧ ¬ Stale req c id) c r.2 ∧ (∀ id, Stale req c id → r.2.loaded id = none) ∧
    ∀ id, r.1 = some id → Found req c r.2 id := by
  subst ran
  unfold findModuleCached
  split
  · rename_i transient
    obtain ⟨ok', keeps, same, found⟩ := load_spec loads req ok
    refine ⟨ok', keeps.mono fun _ _ => trivial, fun id stale => ?_, fun id h => ?_⟩
    · exact absurd stale.1 (by simp [transient])
    · obtain ⟨rfl, loaded, -⟩ := found id h
      refine ⟨⟨_, loaded, rfl, .refl _⟩, fun yes => by simp [transient] at yes,
        fun _ => ⟨le_rfl, fun k entry => ?_⟩⟩
      exact (ok.lt (same ▸ entry)).ne rfl
  · rename_i cacheable
    have cacheable : req.cacheable = true := by simpa using cacheable
    split
    · rename_i absent
      obtain ⟨ok', keeps, found⟩ := loadCached_spec inUse loads ok cacheable absent rfl
      refine ⟨ok', keeps.mono fun _ h => h.1, fun id stale => ?_, found⟩
      simp [Stale, absent] at stale
    · rename_i id entry
      split
      · rename_i hit
        obtain ⟨m, loaded, rev⟩ := ok.cached entry
        refine ⟨⟨ok.fresh, ok.cached, ok.inj⟩,
          ⟨le_rfl, fun _ h => h, fun _ h => h, fun _ h => h, fun _ h => h⟩, fun i stale => ?_, ?_⟩
        · obtain ⟨-, entry', miss⟩ := stale
          cases entry.symm.trans entry'
          simp [hit] at miss
        · rintro _ ⟨⟩
          refine ⟨⟨m, loaded, rev, (validateCodeMatch_iff _ _).mp ?_⟩, fun _ => entry,
            fun no => by simp [cacheable] at no⟩
          simpa [hits, loaded] using hit
      · rename_i miss
        have stale : Stale req c id := ⟨cacheable, entry, by simpa using miss⟩
        obtain ⟨ok', keeps, found⟩ := loadCached_spec inUse loads
          (ok_dropEntry (c.lru.erase req.key) ok entry) cacheable (AList.lookup_erase _ _) rfl
        refine ⟨ok', .trans ((keeps_dropEntry _ entry).mono fun i kept same => ?_)
          (keeps.mono fun _ h => h.1), fun i stale' => ?_, fun i h => ?_⟩
        · exact kept.2 (same ▸ stale)
        · cases entry.symm.trans stale'.2.1
          exact keeps.gone (ok.lt entry) (by simp [dropEntry, unload])
        · obtain ⟨loaded, entry', transient⟩ := found i h
          exact ⟨loaded, entry', transient⟩

theorem unloadAll_spec : ∀ {ids : List ModId} {c : Modules}, c.Ok → (∀ id ∈ ids, ∀ k, c.addrCache.lookup k ≠ some id) →
    (unloadAll ids c).Ok ∧ Keeps (· ∉ ids) c (unloadAll ids c)
  | [], c, ok, _ => ⟨ok, .refl c⟩
  | id :: ids, c, ok, free => by
    have kept : ∀ {i m}, i ≠ id → c.loaded i = some m → (c.unload id).loaded i = some m :=
      fun ne h => by simpa [unload, ne] using h
    have ok₁ : (c.unload id).Ok := by
      refine ⟨fun {i m} h => ?_, fun {k i} h => ?_, ok.inj⟩
      · simp only [unload] at h
        split at h
        · cases h
        · exact ok.fresh h
      · obtain ⟨m, loaded, rev⟩ := ok.cached h
        exact ⟨m, kept (fun same => free id List.mem_cons_self k (same ▸ h)) loaded, rev⟩
    have keeps₁ : Keeps (· ≠ id) c (c.unload id) :=
      ⟨le_rfl, kept, fun _ h => h, fun _ h => by simp [unload, h], fun _ h => h⟩
    obtain ⟨ok', keeps⟩ := unloadAll_spec ok₁ fun i (hi : i ∈ ids) =>
      free i (List.mem_cons_of_mem _ hi)
    refine ⟨ok', (keeps₁.mono fun i out same => ?_).trans (keeps.mono fun i out mem => ?_)⟩
    · exact out (same ▸ List.mem_cons_self)
    · exact out (List.mem_cons_of_mem _ mem)

end Modules

end Dtvm.Vm
