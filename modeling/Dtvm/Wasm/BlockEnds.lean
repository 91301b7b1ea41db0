import Dtvm.Wasm.BlockHistory

/-!
# The searches for the end of a block

`findBlockAddr` and `skipCurrentBlock` go through the code that the loader has left, from instruction start to
instruction start, and both count blocks. They stay in step with the loader, so what they find are the ends
and the `else`s of the loader's blocks. `findBlockAddr` keeps what it finds on the way in a cache; an entry is
of use only when it is complete (`CacheOk`), and it is incomplete only while its block is being searched.
-/

namespace Dtvm.Wasm

open Effect FunctionLoader

variable {ctx : ModuleContext} {fn : CodeEntry} {s s' t : FunctionLoader} {i : Instr} {n : Nat} {wide : Bool}

/-! ## The code that the loader leaves -/

section

variable (turn : s.Turn ctx fn i n wide s')

include turn

theorem FunctionLoader.Turn.decode_final (rest : Reaches ctx fn s' t) :
    decode (t.code.drop s.ptr) = some (i.rewritten wide, n) := by
  have same : (t.code.drop s.ptr).take n = (s'.code.drop s.ptr).take n := by
    have code := congrArg (List.drop s.ptr) (Reaches.code_take rest)
    rw [turn.ptr, List.drop_take, List.drop_take, Nat.add_sub_cancel_left] at code
    exact code
  have final := (decode_local.anywhere turn.decode_after).2 ((t.code.drop s.ptr).drop n)
  rw [← same, List.take_append_drop] at final
  exact final

theorem FunctionLoader.Turn.followed (visited : Visited ctx fn s)
    (loaded : load ctx fn = .ok t) : n = 1 ∨ s'.ptr < t.code.length := by
  have visited' := visited.tail turn
  have length : t.code.length = s'.code.length := Reaches.code_length (visited'.reaches_end loaded)
  cases here : s'.blocks with
  | cons b bs =>
    obtain ⟨i', n', wide', s'', turn', -⟩ := visited'.next loaded (by rw [here]; exact List.cons_ne_nil _ _)
    exact .inr (length ▸ turn'.not_at_end)
  | nil =>
    obtain ⟨b, bs, -, reblocks⟩ := visited.reblocks turn
    rw [here] at reblocks
    cases reblocks with
    | «end» => exact .inl (decode_bare_length turn.decoded rfl)

/-- What the searches see of an instruction: its opcode and the length of its immediates. -/
theorem FunctionLoader.Turn.seen (visited : Visited ctx fn s) (loaded : load ctx fn = .ok t) :
    ∃ b k, t.code[s.ptr]? = some b ∧ Opcode.ofByte b = some (i.rewritten wide).opcode ∧
      findImmediates (i.rewritten wide).opcode (t.code.drop (s.ptr + 1)) = some k ∧
      skipImmediates (i.rewritten wide).opcode (t.code.drop (s.ptr + 1)) = some k ∧ s'.ptr = s.ptr + 1 + k := by
  have final := turn.decode_final ((visited.tail turn).reaches_end loaded)
  obtain ⟨b, rest, k, code, opcode, immediates, rfl⟩ := decode_inv final
  have behind : t.code.drop (s.ptr + 1) = rest := by
    rw [← List.drop_drop, code]
    rfl
  have followed := turn.followed visited loaded
  have ptr := turn.ptr
  have length : rest.length = t.code.length - (s.ptr + 1) := by rw [← behind, List.length_drop]
  obtain ⟨finds, skips⟩ := immediates_of_decode immediates (by omega)
  refine ⟨b, k, ?_, opcode, behind ▸ finds, behind ▸ skips, by omega⟩
  have head : (t.code.drop s.ptr)[0]? = some b := by rw [code]; rfl
  rw [List.getElem?_drop] at head
  exact head

end

/-! ## `findBlockAddr` -/

section Visit

variable (func : Nat) (next : Nat) (f : Find)

theorem Find.visit_opens {label : LabelType} {type : BlockType} (h : i.opens = some (label, type)) :
    f.visit func (i.rewritten wide).opcode next =
      { f with
        ptr := next
        blockStartPtrs := Function.update f.blockStartPtrs f.blockDepth next
        blockDepth := f.blockDepth + 1 } := by
  cases i with
  | block | loop | «if» => rfl
  | _ => cases h

theorem Find.visit_plain (h : i.plain = true) :
    f.visit func (i.rewritten wide).opcode next = { f with ptr := next } := by
  cases i with
  | drop w | select w => cases w <;> cases wide <;> rfl
  | block | loop | «if» | «else» | «end» => cases h
  | _ => rfl

end Visit

def OpenAt (starts : Nat → Nat) : List ControlBlock → Prop
  | [] => True
  | b :: bs => starts bs.length = b.startPtr ∧ OpenAt starts bs

theorem OpenAt.update {starts : Nat → Nat} (a : Nat) : ∀ {bs : List ControlBlock} {k : Nat}, OpenAt starts bs →
    bs.length ≤ k → OpenAt (Function.update starts k a) bs
  | [], _, _, _ => trivial
  | b :: bs, k, ⟨here, rest⟩, le => by
    rw [List.length_cons] at le
    refine ⟨?_, rest.update a (by omega)⟩
    rw [Function.update_of_ne (by omega)]
    exact here

section Find

variable (ends : Nat → Nat → Nat → Option Nat → Prop) (func : Nat)

/-- An entry that gives the end of a block and its `else`. -/
def Complete (g a : Nat) (v : CacheValue) : Prop := ∃ p e, v = ⟨e, some p⟩ ∧ ends g a p e

def CacheOk (cache : BlockAddrCache) : Prop := ∀ {g a v}, cache (g, a) = some v → Complete ends g a v

/-- The search is in step with a loader that has these blocks open in the one that is searched. -/
structure Searching (inner : List ControlBlock) (f : Find) : Prop where
  depth : f.blockDepth = inner.length
  starts : OpenAt f.blockStartPtrs inner
  known : ∀ {g a v}, f.cache (g, a) = some v →
    Complete ends g a v ∨ g = func ∧ ∃ b ∈ inner, b.startPtr = a ∧ v = ⟨b.elsePtr, none⟩
  recorded : ∀ b ∈ inner, b.elsePtr ≠ none → f.cache (func, b.startPtr) ≠ none

namespace Searching

variable {ends func} {inner : List ControlBlock} {b b' : ControlBlock} {f : Find} {next : Nat}

theorem opened (h : Searching ends func inner f) (start : b.startPtr = next) (first : b.elsePtr = none) :
    Searching ends func (b :: inner) { f with
      ptr := next
      blockStartPtrs := Function.update f.blockStartPtrs f.blockDepth next
      blockDepth := f.blockDepth + 1 } where
  depth := congrArg (· + 1) h.depth
  starts := by
    refine ⟨?_, h.starts.update _ (Nat.le_of_eq h.depth.symm)⟩
    show Function.update f.blockStartPtrs f.blockDepth next inner.length = b.startPtr
    rw [h.depth, Function.update_self, start]
  known hv := by
    obtain complete | ⟨rfl, c, mem, here⟩ := h.known hv
    · exact .inl complete
    · exact .inr ⟨rfl, c, List.mem_cons_of_mem b mem, here⟩
  recorded c mem some := by
    obtain rfl | mem := List.mem_cons.mp mem
    · exact absurd first some
    · exact h.recorded c mem some

variable (h : Searching ends func (b :: inner) f)

include h

theorem plain (start : b'.startPtr = b.startPtr)
    (same : b'.elsePtr = b.elsePtr) : Searching ends func (b' :: inner) { f with ptr := next } where
  depth := h.depth
  starts := ⟨start ▸ h.starts.1, h.starts.2⟩
  known hv := by
    obtain complete | ⟨rfl, c, mem, here, rfl⟩ := h.known hv
    · exact .inl complete
    obtain rfl | mem := List.mem_cons.mp mem
    · exact .inr ⟨rfl, b', List.mem_cons_self, start.trans here, same ▸ rfl⟩
    · exact .inr ⟨rfl, c, List.mem_cons_of_mem _ mem, here, rfl⟩
  recorded c mem some := by
    obtain rfl | mem := List.mem_cons.mp mem
    · rw [start]
      exact h.recorded b List.mem_cons_self (same ▸ some)
    · exact h.recorded c (List.mem_cons_of_mem _ mem) some

theorem key : f.key func = (func, b.startPtr) := by
  rw [Find.key, h.depth, List.length_cons, Nat.add_sub_cancel, h.starts.1]

variable (sorted : ∀ c ∈ inner, c.startPtr < b.startPtr)

include sorted

theorem entry : Complete ends func b.startPtr (f.cache.entry (func, b.startPtr)) ∨
      f.cache.entry (func, b.startPtr) = ⟨b.elsePtr, none⟩ := by
  rw [BlockAddrCache.entry]
  cases cached : f.cache (func, b.startPtr) with
  | none =>
    have first : b.elsePtr = none := not_not.mp fun some => h.recorded b List.mem_cons_self some cached
    exact .inr (first ▸ rfl)
  | some v =>
    obtain complete | ⟨-, c, mem, here, rfl⟩ := h.known cached
    · exact .inl complete
    obtain rfl | mem := List.mem_cons.mp mem
    · exact .inr rfl
    · exact absurd (sorted c mem) (by omega)

omit sorted in
theorem known_update {v : CacheValue} {g a : Nat} {w : CacheValue} (other : (g, a) ≠ (func, b.startPtr))
    (hw : Function.update f.cache (func, b.startPtr) (some v) (g, a) = some w) :
    Complete ends g a w ∨ g = func ∧ ∃ c ∈ inner, c.startPtr = a ∧ w = ⟨c.elsePtr, none⟩ := by
  rw [Function.update_of_ne other] at hw
  obtain complete | ⟨rfl, c, mem, here, rfl⟩ := h.known hw
  · exact .inl complete
  obtain rfl | mem := List.mem_cons.mp mem
  · exact absurd (congrArg _ here.symm) other
  · exact .inr ⟨rfl, c, mem, here, rfl⟩

omit sorted in
theorem recorded_update {v : CacheValue} (c : ControlBlock) (mem : c ∈ inner) (some : c.elsePtr ≠ none) :
    Function.update f.cache (func, b.startPtr) (.some v) (func, c.startPtr) ≠ none := by
  by_cases same : (func, c.startPtr) = (func, b.startPtr)
  · rw [same, Function.update_self]
    exact nofun
  · rw [Function.update_of_ne same]
    exact h.recorded c (List.mem_cons_of_mem b mem) some

theorem elsed (unique : ∀ {p e}, ends func b.startPtr p e → e = some f.ptr) (start : b'.startPtr = b.startPtr)
    (here : b'.elsePtr = some f.ptr) : Searching ends func (b' :: inner) (f.visit func .else next) where
  depth := h.depth
  starts := ⟨start ▸ h.starts.1, h.starts.2⟩
  known {g a v} hv := by
    replace hv : Function.update f.cache (f.key func) _ (g, a) = some v := hv
    rw [h.key] at hv
    by_cases same : (g, a) = (func, b.startPtr)
    · obtain ⟨rfl, rfl⟩ := Prod.mk.inj same
      rw [Function.update_self] at hv
      cases hv
      obtain ⟨p, e, entry, isEnd⟩ | entry := h.entry sorted
      · refine .inl ⟨p, e, ?_, isEnd⟩
        rw [entry, unique isEnd]
      · refine .inr ⟨rfl, b', List.mem_cons_self, start, ?_⟩
        rw [entry, here]
    · obtain complete | ⟨rfl, c, mem, here⟩ := h.known_update same hv
      · exact .inl complete
      · exact .inr ⟨rfl, c, List.mem_cons_of_mem b' mem, here⟩
  recorded c mem some := by
    show Function.update f.cache (f.key func) _ (func, c.startPtr) ≠ none
    rw [h.key]
    obtain rfl | mem := List.mem_cons.mp mem
    · rw [start, Function.update_self]
      exact nofun
    · exact h.recorded_update c mem some

theorem ended (isEnd : ends func b.startPtr f.ptr b.elsePtr)
    (unique : ∀ {p e}, ends func b.startPtr p e → p = f.ptr ∧ e = b.elsePtr) :
    Searching ends func inner (f.visit func .end next) ∧
      (f.visit func .end next).cache (func, b.startPtr) = some ⟨b.elsePtr, some f.ptr⟩ := by
  have set : { f.cache.entry (func, b.startPtr) with endPtr := some f.ptr } =
      (⟨b.elsePtr, some f.ptr⟩ : CacheValue) := by
    obtain ⟨p, e, entry, isEnd⟩ | entry := h.entry sorted
    · obtain ⟨rfl, rfl⟩ := unique isEnd
      rw [entry]
    · rw [entry]
  have cache : (f.visit func .end next).cache =
      Function.update f.cache (func, b.startPtr) (some ⟨b.elsePtr, some f.ptr⟩) := by
    show Function.update f.cache (f.key func) (some { f.cache.entry (f.key func) with endPtr := some f.ptr }) = _
    rw [h.key, set]
  refine ⟨⟨?_, h.starts.2, ?_, ?_⟩, ?_⟩
  · show f.blockDepth - 1 = inner.length
    rw [h.depth, List.length_cons, Nat.add_sub_cancel]
  · intro g a v hv
    rw [cache] at hv
    by_cases same : (g, a) = (func, b.startPtr)
    · obtain ⟨rfl, rfl⟩ := Prod.mk.inj same
      rw [Function.update_self] at hv
      exact .inl ⟨f.ptr, b.elsePtr, (Option.some.inj hv).symm, isEnd⟩
    · exact h.known_update same hv
  · intro c mem some
    rw [cache]
    exact h.recorded_update c mem some
  · rw [cache, Function.update_self]

end Searching

theorem Find.loop_done (code : List UInt8) (fuel : Nat) {f : Find} (h : f.blockDepth = 0) :
    Find.loop func code fuel f = some f := by
  cases fuel with
  | zero => rfl
  | succ fuel => exact if_neg fun more => more.2 h

variable {ends func}

theorem Searching.turn (loaded : load ctx fn = .ok t) (same : ∀ {a p e}, ends func a p e ↔ IsEnd ctx fn a p e)
    {b : ControlBlock} {inner outer : List ControlBlock} {f : Find} (visited : Visited ctx fn s)
    (ptr : f.ptr = s.ptr) (blocks : s.blocks = b :: inner ++ outer) (h : Searching ends func (b :: inner) f)
    (turn : s.Turn ctx fn i n wide s') : ∃ inner', s'.blocks = inner' ++ outer ∧
      Searching ends func inner' (f.visit func (i.rewritten wide).opcode s'.ptr) ∧
      (f.visit func (i.rewritten wide).opcode s'.ptr).blockStartPtrs 0 = f.blockStartPtrs 0 ∧ (inner' = [] →
        (f.visit func (i.rewritten wide).opcode s'.ptr).cache (func, f.blockStartPtrs 0) ≠ none) := by
  have ordered := visited.ordered.1
  rw [blocks] at ordered
  have sorted : ∀ c ∈ inner, c.startPtr < b.startPtr := fun c mem =>
    (List.pairwise_cons.mp ordered.sorted).1 c (List.mem_append_left outer mem)
  obtain ⟨c, cs, here, reblocks⟩ := visited.reblocks turn
  obtain ⟨rfl, rfl⟩ := List.cons.inj (blocks.symm.trans here)
  generalize s'.blocks = blocks' at reblocks
  cases reblocks with
  | opens opens size num =>
    have length := decode_opens_length turn.decoded (by rw [opens]; rfl)
    have next := turn.ptr
    rw [Find.visit_opens func s'.ptr f opens]
    refine ⟨_ :: b :: inner, rfl, h.opened (by dsimp only; omega) rfl, ?_, nofun⟩
    show Function.update f.blockStartPtrs f.blockDepth s'.ptr 0 = _
    rw [h.depth, Function.update_of_ne (by exact nofun)]
  | «else» label first =>
    obtain rfl := decode_bare_length turn.decoded rfl
    refine ⟨_ :: inner, rfl, h.elsed sorted (fun isEnd => ?_) rfl (congrArg some ptr.symm), rfl, nofun⟩
    exact ptr ▸ IsEnd.else loaded (same.mp isEnd) visited blocks rfl turn.decoded
  | «end» =>
    obtain rfl := decode_bare_length turn.decoded rfl
    have isEnd : IsEnd ctx fn b.startPtr f.ptr b.elsePtr :=
      ⟨s, b, _, visited, ptr.symm, blocks, rfl, rfl, turn.decoded⟩
    have ended : Searching ends func inner (f.visit func .end s'.ptr) ∧ _ :=
      h.ended sorted (same.mpr isEnd) fun isEnd' => IsEnd.unique loaded (same.mp isEnd') isEnd
    obtain ⟨searching, found⟩ := ended
    refine ⟨inner, rfl, searching, rfl, ?_⟩
    rintro rfl
    have bottom : f.blockStartPtrs 0 = b.startPtr := h.starts.1
    rw [bottom]
    show (f.visit func .end s'.ptr).cache (func, b.startPtr) ≠ none
    rw [found]
    exact nofun
  | stays plain polymorphic =>
    rw [Find.visit_plain func s'.ptr f plain]
    exact ⟨_ :: inner, rfl, h.plain rfl rfl, rfl, nofun⟩

theorem Find.visit_ptr (op : Opcode) (next : Nat) (f : Find) : (f.visit func op next).ptr = next := by
  cases op <;> rfl

/-- **The search finds the end of its block.** -/
theorem Find.loop_ends (loaded : load ctx fn = .ok t) (same : ∀ {a p e}, ends func a p e ↔ IsEnd ctx fn a p e) :
    ∀ (fuel : Nat) {s : FunctionLoader} {inner outer : List ControlBlock} {f : Find}, Visited ctx fn s →
      f.ptr = s.ptr → s.blocks = inner ++ outer → inner ≠ [] → Searching ends func inner f →
      t.code.length ≤ fuel + s.ptr →
      ∃ f', Find.loop func t.code fuel f = some f' ∧ f'.blockDepth = 0 ∧ CacheOk ends f'.cache ∧
        f'.blockStartPtrs 0 = f.blockStartPtrs 0 ∧ f'.cache (func, f.blockStartPtrs 0) ≠ none := by
  intro fuel
  induction fuel with
  | zero =>
    intro s inner outer f visited ptr blocks some searching enough
    obtain ⟨i, n, wide, s', turn, -⟩ := visited.next loaded
      (by rw [blocks]; exact fun none => some (List.append_eq_nil_iff.mp none).1)
    have length : t.code.length = s.code.length := Reaches.code_length (visited.reaches_end loaded)
    exact absurd turn.not_at_end (by omega)
  | succ fuel ih =>
    intro s inner outer f visited ptr blocks some searching enough
    obtain ⟨i, n, wide, s', turn, rest⟩ := visited.next loaded
      (by rw [blocks]; exact fun none => some (List.append_eq_nil_iff.mp none).1)
    obtain ⟨byte, k, here, opcode, finds, -, next⟩ := turn.seen visited loaded
    cases inner with
    | nil => exact absurd rfl some
    | cons b inner =>
      obtain ⟨inner', blocks', searching', bottom, found⟩ := searching.turn loaded same visited ptr blocks turn
      generalize visit : f.visit func (i.rewritten wide).opcode s'.ptr = f' at searching' bottom found
      have stepped : Find.loop func t.code (fuel + 1) f = Find.loop func t.code fuel f' := by
        have more : f.ptr < t.code.length ∧ f.blockDepth ≠ 0 := by
          have length : t.code.length = s.code.length := Reaches.code_length (visited.reaches_end loaded)
          have before := turn.not_at_end
          rw [searching.depth]
          exact ⟨by omega, nofun⟩
        rw [Find.loop, if_pos more, Find.step, ptr, here]
        show ((Opcode.ofByte byte).bind _).bind _ = _
        rw [opcode]
        show ((findImmediates _ _).bind _).bind _ = _
        rw [finds, ← visit, next]
        rfl
      rw [stepped]
      by_cases done : inner' = []
      · subst done
        refine ⟨f', Find.loop_done func _ _ searching'.depth, searching'.depth, ?_, bottom, found rfl⟩
        intro g a v hv
        obtain complete | ⟨-, c, mem, -⟩ := searching'.known hv
        · exact complete
        · cases mem
      · obtain ⟨f'', looped, depth, ok, bottom', found'⟩ := ih (visited.tail turn)
          (visit ▸ Find.visit_ptr _ _ _) blocks' done searching' (by have := turn.lt; omega)
        exact ⟨f'', looped, depth, ok, bottom'.trans bottom, bottom ▸ found'⟩

/-- **`findBlockAddr` is right**: from the start of a block it gives its end and its `else`. -/
theorem findBlockAddr_ends (loaded : load ctx fn = .ok t)
    (same : ∀ {a p e}, ends func a p e ↔ IsEnd ctx fn a p e) (visited : Visited ctx fn s) {b : ControlBlock}
    {outer : List ControlBlock} (blocks : s.blocks = b :: outer) (start : b.startPtr = s.ptr)
    (first : b.elsePtr = none) {cache : BlockAddrCache} (ok : CacheOk ends cache) :
    ∃ p e cache', findBlockAddr func t.code s.ptr cache = some (⟨e, some p⟩, cache') ∧
      IsEnd ctx fn s.ptr p e ∧ CacheOk ends cache' := by
  rw [findBlockAddr]
  cases cached : cache (func, s.ptr) with
  | some v =>
    obtain ⟨p, e, rfl, isEnd⟩ := ok cached
    exact ⟨p, e, cache, rfl, same.mp isEnd, ok⟩
  | none =>
    have searching : Searching ends func [b] ⟨s.ptr, 1, fun _ => s.ptr, cache⟩ := by
      refine ⟨rfl, ⟨start.symm, trivial⟩, fun hv => .inl (ok hv), fun c mem some => ?_⟩
      obtain rfl := List.mem_singleton.mp mem
      exact absurd first some
    obtain ⟨f, looped, depth, ok', bottom, found⟩ := Find.loop_ends loaded same t.code.length visited rfl
      (blocks : s.blocks = [b] ++ outer) (List.cons_ne_nil _ _) searching (by omega)
    obtain ⟨v, here⟩ := Option.ne_none_iff_exists'.mp found
    obtain ⟨p, e, rfl, isEnd⟩ := ok' here
    refine ⟨p, e, f.cache, ?_, same.mp isEnd, ok'⟩
    show (Find.loop func t.code t.code.length _).bind _ = _
    rw [looped, Option.bind_some, if_neg (not_not.mpr depth), bottom, BlockAddrCache.entry]
    rw [here, Option.getD_some]

end Find

/-! ## `skipCurrentBlock` -/

theorem skipLoopFrom_turn (loaded : load ctx fn = .ok t) (visited : Visited ctx fn s)
    (turn : s.Turn ctx fn i n wide s') (fuel nestedLevel : Nat) {op : Opcode}
    (opcode : (i.rewritten wide).opcode = op) : skipLoopFrom t.code (fuel + 1) s.ptr nestedLevel =
      if (op = .else ∨ op = .end) ∧ nestedLevel = 0 then .found s.ptr
      else skipLoopFrom t.code fuel s'.ptr
        (if op = .block ∨ op = .loop ∨ op = .if then nestedLevel + 1
          else if op = .end then nestedLevel - 1 else nestedLevel) := by
  obtain ⟨byte, k, here, read, -, skips, next⟩ := turn.seen visited loaded
  rw [opcode] at read skips
  rw [skipLoopFrom, here]
  dsimp only
  rw [read]
  dsimp only
  rw [skips, next]

theorem opcode_opens {label : LabelType} {type : BlockType} (h : i.opens = some (label, type)) (wide : Bool) :
    ¬ ((i.rewritten wide).opcode = .else ∨ (i.rewritten wide).opcode = .end) ∧
    ((i.rewritten wide).opcode = .block ∨ (i.rewritten wide).opcode = .loop ∨
      (i.rewritten wide).opcode = .if) := by
  cases i with
  | block => exact ⟨nofun, .inl rfl⟩
  | loop => exact ⟨nofun, .inr (.inl rfl)⟩
  | «if» => exact ⟨nofun, .inr (.inr rfl)⟩
  | _ => cases h

theorem opcode_plain (h : i.plain = true) (wide : Bool) :
    ¬ ((i.rewritten wide).opcode = .else ∨ (i.rewritten wide).opcode = .end) ∧
    ¬ ((i.rewritten wide).opcode = .block ∨ (i.rewritten wide).opcode = .loop ∨
      (i.rewritten wide).opcode = .if) := by
  cases i with
  | drop w | select w => cases w <;> cases wide <;> decide
  | block | loop | «if» | «else» | «end» => cases h
  | _ => exact ⟨nofun, nofun⟩

variable (ctx fn s) in
/-- The loop was left at an `else` or `end` for the block `b`, which the loader comes to from `s`. -/
def LeavesAt (b : ControlBlock) (outer : List ControlBlock) (skipped : Skipped) : Prop :=
  ∃ s₁ b₁, skipped = .found s₁.ptr ∧ Visited ctx fn s₁ ∧ Reaches ctx fn s s₁ ∧ s₁.blocks = b₁ :: outer ∧
    b₁.startPtr = b.startPtr ∧ (decode s₁.rest = some (.else, 1) ∨ decode s₁.rest = some (.end, 1))

/-- The loop goes to the `else` or the `end` that comes next for the block below those it has entered. -/
theorem skipLoopFrom_ends (loaded : load ctx fn = .ok t) :
    ∀ (fuel : Nat) {s : FunctionLoader} {inner outer : List ControlBlock} {b : ControlBlock}, Visited ctx fn s →
      s.blocks = inner ++ b :: outer → t.code.length ≤ fuel + s.ptr →
      LeavesAt ctx fn s b outer (skipLoopFrom t.code fuel s.ptr inner.length) := by
  intro fuel
  induction fuel with
  | zero =>
    intro s inner outer b visited blocks enough
    obtain ⟨i, n, wide, s', turn, -⟩ := visited.next loaded
      (by rw [blocks]; exact List.append_ne_nil_of_right_ne_nil _ (List.cons_ne_nil _ _))
    have length : t.code.length = s.code.length := Reaches.code_length (visited.reaches_end loaded)
    exact absurd turn.not_at_end (by omega)
  | succ fuel ih =>
    intro s inner outer b visited blocks enough
    obtain ⟨i, n, wide, s', turn, -⟩ := visited.next loaded
      (by rw [blocks]; exact List.append_ne_nil_of_right_ne_nil _ (List.cons_ne_nil _ _))
    obtain ⟨c, cs, here, reblocks⟩ := visited.reblocks turn
    have go (inner' : List ControlBlock) {b' : ControlBlock} (blocks' : s'.blocks = inner' ++ b' :: outer)
        (start : b'.startPtr = b.startPtr) {level : Nat} (depth : inner'.length = level) :
        LeavesAt ctx fn s b outer (skipLoopFrom t.code fuel s'.ptr level) := by
      obtain ⟨s₁, b₁, found, visited₁, reaches, rest⟩ := ih (visited.tail turn) blocks' (by have := turn.lt; omega)
      exact ⟨s₁, b₁, depth ▸ found, visited₁, .head turn.next reaches, start ▸ rest⟩
    have stop {b₁ : ControlBlock} (here : s.blocks = b₁ :: outer) (start : b₁.startPtr = b.startPtr)
        (which : decode s.rest = some (.else, 1) ∨ decode s.rest = some (.end, 1)) :
        LeavesAt ctx fn s b outer (.found s.ptr) :=
      ⟨s, b₁, rfl, visited, .refl, here, start, which⟩
    rw [skipLoopFrom_turn loaded visited turn fuel _ rfl]
    generalize s'.blocks = blocks' at reblocks go
    rw [← here, blocks] at reblocks
    cases inner with
    | nil =>
      cases reblocks with
      | opens opens size num =>
        obtain ⟨noEnd, opened⟩ := opcode_opens opens wide
        rw [if_neg fun stop => noEnd stop.1, if_pos opened]
        exact go [_] rfl rfl rfl
      | «else» label first =>
        obtain rfl := decode_bare_length turn.decoded rfl
        rw [if_pos ⟨.inl rfl, rfl⟩]
        exact stop blocks rfl (.inl turn.decoded)
      | «end» =>
        obtain rfl := decode_bare_length turn.decoded rfl
        rw [if_pos ⟨.inr rfl, rfl⟩]
        exact stop blocks rfl (.inr turn.decoded)
      | stays plain polymorphic =>
        obtain ⟨noEnd, noBlock⟩ := opcode_plain plain wide
        rw [if_neg fun stop => noEnd stop.1, if_neg noBlock, if_neg fun ended => noEnd (.inr ended)]
        exact go [] rfl rfl rfl
    | cons c' inner =>
      cases reblocks with
      | opens opens size num =>
        obtain ⟨noEnd, opened⟩ := opcode_opens opens wide
        rw [if_neg fun stop => noEnd stop.1, if_pos opened]
        exact go (_ :: c' :: inner) rfl rfl rfl
      | «else» label first =>
        rw [if_neg fun stop => nomatch stop.2]
        exact go (_ :: inner) rfl rfl rfl
      | «end» =>
        rw [if_neg fun stop => nomatch stop.2]
        exact go inner rfl rfl rfl
      | stays plain polymorphic =>
        obtain ⟨noEnd, noBlock⟩ := opcode_plain plain wide
        rw [if_neg fun stop => noEnd stop.1, if_neg noBlock, if_neg fun ended => noEnd (.inr ended)]
        exact go (_ :: inner) rfl rfl rfl

end Dtvm.Wasm
