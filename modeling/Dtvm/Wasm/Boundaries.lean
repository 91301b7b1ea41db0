import Mathlib.Data.List.Forall2
import Dtvm.Wasm.Accesses
import Dtvm.Wasm.BlockEnds
import Dtvm.Wasm.ExecMoves

/-!
# The interpreter keeps to instruction starts

Wherever the interpreter is in a loaded function, the loader has been there, with the same blocks open
(`At`): the control stack of the frame is the loader's, and the addresses in it are the ends of its blocks or
the starts of its loops. Every move of the interpreter keeps this. The one thing that can go wrong is a label
of `br_table` with more than two bytes.
-/

namespace Dtvm.Wasm

open Effect FunctionLoader

/-! ## Loaded modules -/

structure LoadedFunction (ctx : ModuleContext) (fn : CodeEntry) (t : FunctionLoader) (f : FunctionInstance) :
    Prop where
  loaded : load ctx fn = .ok t
  type : f.type = fn.type
  localTypes : f.localTypes = fn.localTypes
  code : f.code = t.code
  maxStackSize : f.maxStackSize = t.typing.maxStackSize
  maxBlockDepth : f.maxBlockDepth = t.typing.maxBlockDepth

/-- A module whose functions have been loaded; `body` has their code and the loaders at its end. -/
structure Loaded (ctx : ModuleContext) (m : Module) (body : Nat → CodeEntry × FunctionLoader) : Prop where
  types : m.types = ctx.types
  functions : m.functions.map FunctionInstance.type = ctx.functions
  globals : m.globalTypes = ctx.globals.map GlobalEntry.type
  elements : ∀ e ∈ m.elements, e ≠ 0xffffffff → e.toNat < m.functions.length
  bodies : ∀ {idx f}, m.functions[idx]? = some f → f.native = false →
    LoadedFunction ctx (body idx).1 (body idx).2 f

/-- An instruction of the function starts here: the loader has decoded and checked it. -/
def IsStart (ctx : ModuleContext) (fn : CodeEntry) (ip : Nat) : Prop :=
  ∃ s, Visited ctx fn s ∧ s.ptr = ip ∧ s.blocks ≠ []

section Targets

variable {ctx : ModuleContext} {fn : CodeEntry} {s s' t : FunctionLoader} {i : Instr} {n : Nat} {wide : Bool}
  {b : ControlBlock} {bs : List ControlBlock}

/-! ## The control stack -/

variable (ctx fn) in
/-- An entry of the control stack for a block of the loader. -/
structure BlockMatch (b : ControlBlock) (block : BlockInfo) : Prop where
  label : block.labelType = b.labelType
  loop : b.labelType = .loop → block.targetAddr = b.startPtr
  ends : b.labelType ≠ .loop → ∃ e, IsEnd ctx fn b.startPtr block.targetAddr e

variable {block : BlockInfo} {ip : Nat} {ctrl : List BlockInfo}

theorem BlockMatch.of_fresh {b' : ControlBlock} (h : BlockMatch ctx fn b block)
    (same : b'.fresh = b.fresh) : BlockMatch ctx fn b' block := by
  have label := congrArg ControlBlock.labelType same
  have start := congrArg ControlBlock.startPtr same
  change b'.labelType = b.labelType at label
  change b'.startPtr = b.startPtr at start
  exact ⟨h.label.trans label.symm, label ▸ start ▸ h.loop, label ▸ start ▸ h.ends⟩

variable (ctx fn) in
/-- The loader has been at this address, with these blocks open. -/
structure At (ip : Nat) (ctrl : List BlockInfo) (s : FunctionLoader) : Prop where
  visited : Visited ctx fn s
  ptr : s.ptr = ip
  blocks : List.Forall₂ (BlockMatch ctx fn) s.blocks ctrl
  opened : s.blocks ≠ []

theorem At.isStart (h : At ctx fn ip ctrl s) : IsStart ctx fn ip :=
  ⟨s, h.visited, h.ptr, h.opened⟩

theorem FunctionLoader.IsEnd.isStart {a p : Nat} {e : Option Nat} (h : IsEnd ctx fn a p e) : IsStart ctx fn p := by
  obtain ⟨s, b, bs, visited, ptr, here, -⟩ := h
  exact ⟨s, visited, ptr, here ▸ List.cons_ne_nil _ _⟩

theorem BlockMatch.isStart (h : BlockMatch ctx fn b block) (visited : Visited ctx fn s)
    (here : (b :: bs) <:+ s.blocks) : IsStart ctx fn block.targetAddr := by
  by_cases label : b.labelType = .loop
  · obtain ⟨s₀, visited₀, -, ptr, opened⟩ := visited.opened here
    refine ⟨s₀, visited₀, ptr.trans (h.loop label).symm, ?_⟩
    rw [opened]
    exact List.cons_ne_nil _ _
  · obtain ⟨e, isEnd⟩ := h.ends label
    exact IsEnd.isStart isEnd

/-! ## Where the interpreter can go -/

theorem At.plain (h : At ctx fn ip ctrl s) (turn : s.Turn ctx fn i n wide s')
    (plain : i.plain = true) : At ctx fn (ip + n) ctrl s' := by
  obtain ⟨b, bs, here, reblocks⟩ := h.visited.reblocks turn
  have blocks := h.blocks
  have ptr := turn.ptr
  rw [here] at blocks
  generalize blocks' : s'.blocks = bs' at reblocks
  cases reblocks with
  | opens opens => cases opens.symm.trans (Instr.opens_of_plain plain)
  | «else» | «end» => cases plain
  | stays =>
    refine ⟨h.visited.tail turn, ptr.trans (congrArg (· + n) h.ptr), ?_, blocks' ▸ List.cons_ne_nil _ _⟩
    rw [blocks']
    cases blocks with
    | cons first rest => exact .cons (first.of_fresh rfl) rest

theorem At.target (h : At ctx fn ip ctrl s) (here : (b :: bs) <:+ s.blocks) (same : BlockMatch ctx fn b block) :
    ∃ s₁ b₁, Visited ctx fn s₁ ∧ s₁.ptr = block.targetAddr ∧ s₁.blocks = b₁ :: bs ∧ b₁.fresh = b.fresh ∧
      (b.labelType = .loop → b₁ = b.fresh) ∧ (b.labelType ≠ .loop → decode s₁.rest = some (.end, 1)) := by
  by_cases label : b.labelType = .loop
  · obtain ⟨s₀, visited₀, -, ptr, opened⟩ := h.visited.opened here
    exact ⟨s₀, b.fresh, visited₀, ptr.trans (same.loop label).symm, opened, rfl, fun _ => rfl,
      fun no => absurd label no⟩
  · obtain ⟨e, s₁, b₁, bs₁, visited₁, ptr, here₁, start, -, ends⟩ := same.ends label
    have suffix : (b₁ :: bs₁) <:+ s₁.blocks := here₁ ▸ List.suffix_rfl
    obtain ⟨fresh, rfl⟩ := visited₁.same_block h.visited suffix here start
    exact ⟨s₁, b₁, visited₁, ptr, here₁, fresh, fun loop => absurd loop label, fun _ => ends⟩

theorem At.opens (h : At ctx fn ip ctrl s) (turn : s.Turn ctx fn i n wide s')
    {label : LabelType} {type : BlockType} (opens : i.opens = some (label, type)) :
    n = 2 ∧ s'.ptr = ip + 2 ∧ ∃ size num,
      s'.blocks = ⟨false, label, .value type, s'.ptr, none, size, num⟩ :: s.blocks := by
  obtain rfl := decode_opens_length turn.decoded (by rw [opens]; rfl)
  obtain ⟨b, bs, here, reblocks⟩ := h.visited.reblocks turn
  have ptr := turn.ptr
  refine ⟨rfl, ptr.trans (congrArg (· + 2) h.ptr), ?_⟩
  rw [here, ptr]
  generalize s'.blocks = bs' at reblocks
  cases reblocks with
  | opens opens' size num =>
    obtain ⟨rfl, rfl⟩ := Prod.mk.inj (Option.some.inj (opens.symm.trans opens'))
    exact ⟨size, num, rfl⟩
  | «else» | «end» => cases opens
  | stays plain => cases opens.symm.trans (Instr.opens_of_plain plain)

theorem BlockMatch.opened {label : LabelType} {type : ControlBlockType} {a target ptr cells size num : Nat}
    (loop : label = .loop → target = a) (ends : label ≠ .loop → ∃ e, IsEnd ctx fn a target e) :
    BlockMatch ctx fn ⟨false, label, type, a, none, size, num⟩ ⟨target, ptr, cells, label⟩ :=
  ⟨rfl, loop, ends⟩

theorem elsed_at (loaded : load ctx fn = .ok t) (visited : Visited ctx fn s) (here : s.blocks = b :: bs)
    {p q : Nat} (isEnd : IsEnd ctx fn b.startPtr p (some q)) :
    ∃ s₁ s₂ b₁ wide, Visited ctx fn s₁ ∧ s₁.Turn ctx fn .else 1 wide s₂ ∧ s₂.ptr = q + 1 ∧
      s₁.blocks = b₁ :: bs ∧ b₁.fresh = b.fresh ∧
      s₂.blocks = { b₁ with elsePtr := some s₁.ptr, stackPolymorphic := false } :: bs := by
  obtain ⟨s', b', bs', visited', -, here', start', else', -⟩ := isEnd
  have suffix' : (b' :: bs') <:+ s'.blocks := here' ▸ List.suffix_rfl
  obtain ⟨s₁, b₁, visited₁, ptr, decoded, here₁, start₁, label⟩ :=
    visited'.elsed suffix' else'
  have suffix : (b :: bs) <:+ s.blocks := here ▸ List.suffix_rfl
  have suffix₁ : (b₁ :: bs') <:+ s₁.blocks := here₁ ▸ List.suffix_rfl
  obtain ⟨fresh, rfl⟩ := visited₁.same_block visited suffix₁ suffix (start₁.trans start')
  obtain ⟨wide, s₂, turn, -⟩ := visited₁.turn_at loaded (here₁ ▸ List.cons_ne_nil _ _) decoded
  obtain ⟨c, cs, here₂, reblocks⟩ := visited₁.reblocks turn
  obtain ⟨rfl, rfl⟩ := List.cons.inj (here₁.symm.trans here₂)
  refine ⟨s₁, s₂, b₁, wide, visited₁, turn, turn.ptr.trans (congrArg (· + 1) ptr), here₁, fresh, ?_⟩
  generalize s₂.blocks = bs₂ at reblocks
  cases reblocks with
  | opens opens => cases opens
  | «else» => rfl
  | stays plain => cases plain

theorem ended (visited : Visited ctx fn s) (turn : s.Turn ctx fn .end n wide s') (here : s.blocks = b :: bs) :
    n = 1 ∧ s'.blocks = bs := by
  refine ⟨decode_bare_length turn.decoded rfl, ?_⟩
  obtain ⟨c, cs, here', reblocks⟩ := visited.reblocks turn
  obtain ⟨rfl, rfl⟩ := List.cons.inj (here.symm.trans here')
  generalize s'.blocks = bs' at reblocks
  cases reblocks with
  | opens opens => cases opens
  | «end» => rfl
  | stays plain => cases plain

theorem ended_at (loaded : load ctx fn = .ok t) (visited : Visited ctx fn s) (here : s.blocks = b :: bs) {p : Nat}
    {e : Option Nat} (isEnd : IsEnd ctx fn b.startPtr p e) :
    ∃ s₁ s₂ b₁ wide, Visited ctx fn s₁ ∧ s₁.Turn ctx fn .end 1 wide s₂ ∧ s₂.ptr = p + 1 ∧
      s₁.blocks = b₁ :: bs ∧ b₁.fresh = b.fresh ∧ b₁.elsePtr = e ∧ s₂.blocks = bs := by
  obtain ⟨s₁, b₁, bs₁, visited₁, ptr, here₁, start₁, else₁, decoded⟩ := isEnd
  have suffix : (b :: bs) <:+ s.blocks := here ▸ List.suffix_rfl
  have suffix₁ : (b₁ :: bs₁) <:+ s₁.blocks := here₁ ▸ List.suffix_rfl
  obtain ⟨fresh, rfl⟩ := visited₁.same_block visited suffix₁ suffix start₁
  obtain ⟨wide, s₂, turn, -⟩ := visited₁.turn_at loaded (here₁ ▸ List.cons_ne_nil _ _) decoded
  exact ⟨s₁, s₂, b₁, wide, visited₁, turn, turn.ptr.trans (congrArg (· + 1) ptr), here₁, fresh, else₁,
    (ended visited₁ turn here₁).2⟩

end Targets

/-! ## What the loader has checked -/

section Checked

variable {ctx : ModuleContext} {fn : CodeEntry} {ptr : Nat} {last : Bool} {v : Typing} {r : Typing × Bool}

theorem Instr.check_local {i : Instr} {idx : Nat} (isLocal : i.local? = some idx)
    (h : i.check ctx fn ptr last v = .ok r) : ∃ t, (fn.type.params ++ fn.localTypes)[idx]? = some t := by
  cases i with
  | getLocal idx' | setLocal idx' | teeLocal idx' =>
    cases isLocal
    obtain ⟨t, found, -⟩ := bind_eq_ok.mp h
    exact ⟨t, lookup_eq_ok.mp found⟩
  | _ => cases isLocal

theorem Instr.check_variable {i : Instr} {m : Module} {f : FunctionInstance} (isVariable : i.variable? = true)
    (type : f.type = fn.type) (localTypes : f.localTypes = fn.localTypes)
    (globals : m.globalTypes = ctx.globals.map GlobalEntry.type) (h : i.check ctx fn ptr last v = .ok r) :
    i.cells m f ≠ none := by
  have isLocal {idx : Nat} (isLocal : i.local? = some idx) : ∃ t, f.getLocalType idx = some t := by
    rw [FunctionInstance.getLocalType, type, localTypes]
    exact Instr.check_local isLocal h
  cases i with
  | getLocal idx | setLocal idx | teeLocal idx =>
    obtain ⟨t, found⟩ := isLocal rfl
    rw [Instr.cells, found]
    exact nofun
  | getGlobal idx | setGlobal idx =>
    obtain ⟨g, found, -⟩ := bind_eq_ok.mp h
    rw [Instr.cells, globals, List.getElem?_map, lookup_eq_ok.mp found]
    exact nofun
  | _ => cases isVariable

theorem Instr.check_call {idx : Nat} (h : (Instr.call idx).check ctx fn ptr last v = .ok r) :
    ∃ type v', ctx.functions[idx]? = some type ∧ v.callType type = .ok v' ∧ r = (v', false) := by
  obtain ⟨type, found, h⟩ := bind_eq_ok.mp h
  obtain ⟨v', called, h⟩ := bind_eq_ok.mp h
  exact ⟨type, v', lookup_eq_ok.mp found, called, (Except.ok.inj h).symm⟩

theorem Instr.check_callIndirect {idx : Nat} (h : (Instr.callIndirect idx).check ctx fn ptr last v = .ok r) :
    ∃ type v₁ v', ctx.types[idx]? = some type ∧ v.popVal .i32 = .ok v₁ ∧ v₁.callType type = .ok v' ∧
      r = (v', false) := by
  obtain ⟨type, found, h⟩ := bind_eq_ok.mp h
  obtain ⟨-, h⟩ := ite_error_eq_ok.mp h
  obtain ⟨v₁, popped, h⟩ := bind_eq_ok.mp h
  obtain ⟨v', called, h⟩ := bind_eq_ok.mp h
  exact ⟨type, v₁, v', lookup_eq_ok.mp found, popped, called, (Except.ok.inj h).symm⟩

end Checked

/-! ## Frames -/

section Runs

variable (ctx : ModuleContext) (m : Module) (body : Nat → CodeEntry × FunctionLoader)

def blockEnds (func a p : Nat) (e : Option Nat) : Prop := IsEnd ctx (body func).1 a p e

/-- A function of the module, at an instruction that the loader has checked, with the blocks open that were
open then. -/
def FrameAt (func ip : Nat) (ctrl : List BlockInfo) : Prop :=
  ∃ f s, m.functions[func]? = some f ∧ f.native = false ∧ At ctx (body func).1 ip ctrl s

/-- Every frame is at an instruction, and the cache has the ends of blocks. -/
structure Located (s : Interp) : Prop where
  frames : ∀ fr ∈ s.frames, FrameAt ctx m body fr.funcIdx fr.ip fr.ctrl
  cache : CacheOk (blockEnds ctx body) s.cache

/-- The instruction of a frame, where the loader was when it checked it and where it went. -/
structure Fetches (fr : InterpFrame) (f : FunctionInstance) (l : FunctionLoader) (i : Instr) (n : Nat)
    (wide : Bool) (l' : FunctionLoader) : Prop where
  func : m.functions[fr.funcIdx]? = some f
  bytecode : f.native = false
  here : At ctx (body fr.funcIdx).1 fr.ip fr.ctrl l
  turn : l.Turn ctx (body fr.funcIdx).1 i n wide l'

variable {ctx m body} {s s' : Interp} {fr : InterpFrame} {outer : List InterpFrame} {f : FunctionInstance}
  {l l' : FunctionLoader} {i : Instr} {n : Nat} {wide : Bool}

theorem FrameAt.fetches (mod : Loaded ctx m body) (h : FrameAt ctx m body fr.funcIdx fr.ip fr.ctrl) :
    ∃ f l i n wide l', Fetches ctx m body fr f l i n wide l' := by
  obtain ⟨f, l, func, bytecode, here⟩ := h
  obtain ⟨i, n, wide, l', turn, -⟩ := here.visited.next (mod.bodies func bytecode).loaded here.opened
  exact ⟨f, l, i, n, wide, l', func, bytecode, here, turn⟩

namespace Fetches

variable (mod : Loaded ctx m body) (h : Fetches ctx m body fr f l i n wide l')

include mod h

theorem loaded : LoadedFunction ctx (body fr.funcIdx).1 (body fr.funcIdx).2 f := mod.bodies h.func h.bytecode

theorem decoded : decode (f.code.drop fr.ip) = some (i.rewritten wide, n) := by
  have rest := (h.here.visited.tail h.turn).reaches_end (h.loaded mod).loaded
  rw [(h.loaded mod).code, ← h.here.ptr]
  exact h.turn.decode_final rest

theorem followed : n = 1 ∨ fr.ip + n < f.code.length := by
  have followed := h.turn.followed h.here.visited (h.loaded mod).loaded
  rw [h.turn.ptr, h.here.ptr] at followed
  rw [(h.loaded mod).code]
  exact followed

/-- The byte that is fetched is the opcode of the instruction, and its immediates follow. -/
theorem fetched : ∃ byte k, n = k + 1 ∧ f.code[fr.ip]? = some byte ∧
    Opcode.ofByte byte = some (i.rewritten wide).opcode ∧
    decodeImmediates (i.rewritten wide).opcode (f.code.drop (fr.ip + 1)) = some (i.rewritten wide, k) := by
  obtain ⟨byte, rest, k, code, opcode, immediates, rfl⟩ := decode_inv (h.decoded mod)
  have head : (f.code.drop fr.ip)[0]? = some byte := by rw [code]; rfl
  have behind : f.code.drop (fr.ip + 1) = rest := by
    rw [← List.drop_drop, code]
    rfl
  rw [List.getElem?_drop] at head
  rw [← behind] at immediates
  exact ⟨byte, k, rfl, head, opcode, immediates⟩

/-- **A turn of the loop** is a turn at the instruction that the loader checked here. -/
theorem step_moves (frames : s.frames = fr :: outer) (num : Numerics) (ans : Answer) :
    Yields (s.step m num ans) (Move m f (i.rewritten wide) (fr.ip + n) s fr outer)
      (Failure m f (i.rewritten wide) (fr.ip + n) s fr) := by
  have followed := h.followed mod
  obtain ⟨byte, k, rfl, here, opcode, immediates⟩ := h.fetched mod
  have now : s.frame = .ok fr := Interp.frame_eq_ok.mpr (by rw [frames]; rfl)
  have next : fr.ip + (k + 1) = fr.ip + 1 + k := by omega
  rw [Interp.step_eq_exec now h.func here opcode, next]
  exact exec_moves frames rfl immediates (by omega)

omit h in
theorem entered {func : Nat} (here : m.functions[func]? = some f) (bytecode : f.native = false) (ptr cells : Nat) :
    FrameAt ctx m body func 0 [⟨f.code.length - 1, ptr, cells, .function⟩] := by
  have loaded := mod.bodies here bytecode
  obtain ⟨e, isEnd⟩ := isEnd_function loaded.loaded
  rw [← loaded.code] at isEnd
  have first : BlockMatch ctx (body func).1 ⟨false, .function, .func (body func).1.type, 0, none, 0, 0⟩
      ⟨f.code.length - 1, ptr, cells, .function⟩ := ⟨rfl, nofun, fun _ => ⟨e, isEnd⟩⟩
  exact ⟨f, start (body func).1, here, bytecode, .refl, rfl, .cons first .nil, List.cons_ne_nil _ _⟩

omit mod in
theorem plain_at (plain : i.plain = true) : FrameAt ctx m body fr.funcIdx (fr.ip + n) fr.ctrl :=
  ⟨f, l', h.func, h.bytecode, h.here.plain h.turn plain⟩

variable {label : LabelType} {type : BlockType}

theorem finds (opens : i.opens = some (label, type))
    {cache : BlockAddrCache} (ok : CacheOk (blockEnds ctx body) cache) :
    ∃ p e cache', findBlockAddr fr.funcIdx f.code (fr.ip + n) cache = some (⟨e, some p⟩, cache') ∧
      IsEnd ctx (body fr.funcIdx).1 l'.ptr p e ∧ CacheOk (blockEnds ctx body) cache' := by
  obtain ⟨rfl, ptr, size, num, here⟩ := h.here.opens h.turn opens
  have loaded := h.loaded mod
  rw [loaded.code, ← ptr]
  exact findBlockAddr_ends loaded.loaded Iff.rfl (h.here.visited.tail h.turn) here rfl rfl ok

theorem found (opens : i.opens = some (label, type))
    {cache cache' : BlockAddrCache} (ok : CacheOk (blockEnds ctx body) cache) {e : Option Nat} {p : Nat}
    (found : findBlockAddr fr.funcIdx f.code (fr.ip + n) cache = some (⟨e, some p⟩, cache')) :
    IsEnd ctx (body fr.funcIdx).1 l'.ptr p e ∧ CacheOk (blockEnds ctx body) cache' := by
  obtain ⟨p', e', cache'', found', ends⟩ := h.finds mod opens ok
  cases found.symm.trans found'
  exact ends

omit mod in
theorem opened_at (opens : i.opens = some (label, type)) {target : Nat} (loop : label = .loop → target = fr.ip + n)
    (ends : label ≠ .loop → ∃ e, IsEnd ctx (body fr.funcIdx).1 l'.ptr target e) (ptr cells : Nat) :
    FrameAt ctx m body fr.funcIdx (fr.ip + n) (⟨target, ptr, cells, label⟩ :: fr.ctrl) := by
  obtain ⟨rfl, next, size, num, here⟩ := h.here.opens h.turn opens
  refine ⟨f, l', h.func, h.bytecode, h.here.visited.tail h.turn, next, ?_, here ▸ List.cons_ne_nil _ _⟩
  rw [here]
  exact .cons (.opened (fun isLoop => (loop isLoop).trans next.symm) ends) h.here.blocks

theorem elsed_at (opens : i.opens = some (.if, type)) {p q : Nat}
    (isEnd : IsEnd ctx (body fr.funcIdx).1 l'.ptr p (some q)) (ptr cells : Nat) :
    FrameAt ctx m body fr.funcIdx (q + 1) (⟨p, ptr, cells, .if⟩ :: fr.ctrl) := by
  obtain ⟨rfl, next, size, num, here⟩ := h.here.opens h.turn opens
  obtain ⟨l₁, l₂, b₁, wide₁, visited₁, turn₁, ptr₂, here₁, fresh, here₂⟩ :=
    Wasm.elsed_at (h.loaded mod).loaded (h.here.visited.tail h.turn) here isEnd
  refine ⟨f, l₂, h.func, h.bytecode, visited₁.tail turn₁, ptr₂, ?_, here₂ ▸ List.cons_ne_nil _ _⟩
  rw [here₂]
  have opened : BlockMatch ctx (body fr.funcIdx).1 ⟨false, .if, .value type, l'.ptr, none, size, num⟩
      ⟨p, ptr, cells, .if⟩ := .opened nofun fun _ => ⟨_, isEnd⟩
  exact .cons (opened.of_fresh fresh) h.here.blocks

theorem skipped_at (opens : i.opens = some (.if, type)) {p : Nat}
    (isEnd : IsEnd ctx (body fr.funcIdx).1 l'.ptr p none) : FrameAt ctx m body fr.funcIdx (p + 1) fr.ctrl := by
  obtain ⟨rfl, next, size, num, here⟩ := h.here.opens h.turn opens
  obtain ⟨l₁, l₂, b₁, wide₁, visited₁, turn₁, ptr₂, here₁, -, -, here₂⟩ :=
    ended_at (h.loaded mod).loaded (h.here.visited.tail h.turn) here isEnd
  refine ⟨f, l₂, h.func, h.bytecode, visited₁.tail turn₁, ptr₂, ?_, by rw [here₂]; exact h.here.opened⟩
  rw [here₂]
  exact h.here.blocks

omit mod in
theorem target_at {depth : Nat} {block : BlockInfo} {blocks : List BlockInfo}
    (ctrl : fr.ctrl.drop depth = block :: blocks) :
    FrameAt ctx m body fr.funcIdx block.targetAddr (block :: blocks) := by
  have dropped := List.forall₂_drop depth h.here.blocks
  have suffix := List.drop_suffix depth l.blocks
  rw [ctrl] at dropped
  generalize l.blocks.drop depth = open_ at dropped suffix
  cases dropped with
  | cons first rest =>
    obtain ⟨l₁, b₁, visited₁, ptr₁, here₁, fresh, -⟩ := h.here.target suffix first
    refine ⟨f, l₁, h.func, h.bytecode, visited₁, ptr₁, ?_, here₁ ▸ List.cons_ne_nil _ _⟩
    rw [here₁]
    exact .cons (first.of_fresh fresh) rest

omit mod in
theorem ended_at (ends : i = .end) (inner : 1 < fr.ctrl.length) :
    FrameAt ctx m body fr.funcIdx (fr.ip + n) fr.ctrl.tail := by
  subst ends
  obtain ⟨b, bs, here, -⟩ := h.here.visited.reblocks h.turn
  obtain ⟨rfl, closed⟩ := ended h.here.visited h.turn here
  have blocks := h.here.blocks
  have length := blocks.length_eq
  rw [here] at blocks length
  have some : bs ≠ [] := by
    rintro rfl
    exact absurd inner (by rw [← length]; exact Nat.lt_irrefl 1)
  refine ⟨f, l', h.func, h.bytecode, h.here.visited.tail h.turn, h.turn.ptr.trans (congrArg (· + 1) h.here.ptr), ?_,
    by rw [closed]; exact some⟩
  obtain ⟨_, _, -, rest, same⟩ := List.forall₂_cons_left_iff.mp blocks
  rw [closed, same]
  exact rest

/-- **A move keeps every frame at an instruction.** -/
theorem located (frames : s.frames = fr :: outer) (at_ : Located ctx m body s)
    (move : Move m f (i.rewritten wide) (fr.ip + n) s fr outer s') : Located ctx m body s' := by
  have outer_at : ∀ fr' ∈ outer, FrameAt ctx m body fr'.funcIdx fr'.ip fr'.ctrl := fun fr' mem =>
    at_.frames fr' (by rw [frames]; exact List.mem_cons_of_mem fr mem)
  have plain_rewritten := i.plain_rewritten wide
  -- a move within the frame
  have stays {s₁ : Interp} {fr' : InterpFrame} (now : Now s₁ (fr' :: outer) s')
      (here : FrameAt ctx m body fr'.funcIdx fr'.ip fr'.ctrl) (ok : CacheOk (blockEnds ctx body) s₁.cache) :
      Located ctx m body s' := by
    refine ⟨?_, now.cache ▸ ok⟩
    rw [now.frames]
    exact List.forall_mem_cons.mpr ⟨here, outer_at⟩
  cases move with
  | goes cells now => exact stays now (h.plain_at (plain_rewritten ▸ Instr.plain_of_cells cells)) at_.cache
  | loops opens now =>
    obtain rfl := Instr.eq_of_rewritten opens fun _ => ⟨nofun, nofun⟩
    exact stays now (h.opened_at rfl (fun _ => rfl) (fun no => absurd rfl no) _ _) at_.cache
  | opens opens notLoop found now =>
    rw [Instr.opens_rewritten] at opens
    obtain ⟨isEnd, ok⟩ := h.found mod opens at_.cache found
    exact stays now (h.opened_at opens (fun loop => absurd loop notLoop) (fun _ => ⟨_, isEnd⟩) _ _) ok
  | elses opens found now =>
    obtain rfl := Instr.eq_of_rewritten opens fun _ => ⟨nofun, nofun⟩
    obtain ⟨isEnd, ok⟩ := h.found mod rfl at_.cache found
    exact stays now (h.elsed_at mod rfl isEnd _ _) ok
  | skips opens found now =>
    obtain rfl := Instr.eq_of_rewritten opens fun _ => ⟨nofun, nofun⟩
    obtain ⟨isEnd, ok⟩ := h.found mod rfl at_.cache found
    exact stays now (h.skipped_at mod rfl isEnd) ok
  | «else» isElse ctrl now =>
    have target := h.target_at (show fr.ctrl.drop 0 = _ from ctrl)
    rw [← ctrl] at target
    exact stays now target at_.cache
  | ends isEnd inner now =>
    exact stays now (h.ended_at (Instr.eq_of_rewritten isEnd fun _ => ⟨nofun, nofun⟩) inner) at_.cache
  | branches label ctrl now => exact stays now (h.target_at ctrl) at_.cache
  | falls isBrIf now =>
    obtain rfl := Instr.eq_of_rewritten isBrIf fun _ => ⟨nofun, nofun⟩
    exact stays now (h.plain_at rfl) at_.cache
  | charges isGas gas now =>
    obtain rfl := Instr.eq_of_rewritten isGas fun _ => ⟨nofun, nofun⟩
    exact stays now (h.plain_at rfl) at_.cache
  | hosts calls native now => exact stays now (h.plain_at (plain_rewritten ▸ calls.plain)) at_.cache
  | calls calls native locals frames' top cache =>
    refine ⟨?_, cache ▸ at_.cache⟩
    rw [frames']
    exact List.forall_mem_cons.mpr ⟨entered mod calls.1 native _ _,
      List.forall_mem_cons.mpr ⟨h.plain_at (plain_rewritten ▸ calls.plain), outer_at⟩⟩
  | returns leaves frames' top cache =>
    refine ⟨?_, cache ▸ at_.cache⟩
    rw [frames']
    cases outer with
    | nil => exact fun _ none => nomatch none
    | cons caller outer => exact List.forall_mem_cons.mpr ⟨outer_at caller List.mem_cons_self,
        fun fr' mem => outer_at fr' (List.mem_cons_of_mem caller mem)⟩

/-- **What has been checked can be decoded**, but for the labels of `br_table`. -/
theorem undecoded (cache : CacheOk (blockEnds ctx body) s.cache) {a : Assertion} (decoding : a = .leb ∨ a = .code)
    (failure : Failure m f (i.rewritten wide) (fr.ip + n) s fr (.abort a)) :
    (∃ depths, i.rewritten wide = .brTable depths) ∧ fr.valueBasePtr + 4 * 1 ≤ fr.valueStackPtr ∧
      LongLabel f.code (fr.ip + 1) (s.tested fr).toNat := by
  have loaded := h.loaded mod
  cases failure with
  | low | high | locals | untested | gas | hostLow | hostHigh
  | full | deep | noBlock | noMemory => obtain no | no := decoding <;> cases no
  | longLabel isTable operand long => exact ⟨⟨_, isTable⟩, operand, long⟩
  | notFound opens notFound =>
    rw [Instr.opens_rewritten] at opens
    obtain ⟨⟨label, type⟩, opens⟩ := Option.isSome_iff_exists.mp opens
    obtain ⟨p, e, cache', found, -⟩ := h.finds mod opens cache
    exact absurd found (notFound e p cache')
  | unknownVariable isVariable unknown =>
    have same : i.rewritten wide = i := by
      cases i with
      | drop | select => cases isVariable
      | _ => rfl
    rw [same] at isVariable unknown
    exact absurd unknown
      (Instr.check_variable isVariable loaded.type loaded.localTypes mod.globals h.turn.checked)
  | unknownFunction isCall unknown =>
    obtain rfl := Instr.eq_of_rewritten isCall fun _ => ⟨nofun, nofun⟩
    obtain ⟨type, -, found, -⟩ := Instr.check_call h.turn.checked
    rw [← mod.functions, List.getElem?_map, unknown] at found
    cases found
  | unknownType isCall unknown =>
    obtain rfl := Instr.eq_of_rewritten isCall fun _ => ⟨nofun, nofun⟩
    obtain ⟨type, -, -, found, -⟩ := Instr.check_callIndirect h.turn.checked
    rw [← mod.types, unknown] at found
    cases found
  | unknownElement element set unknown =>
    have lt := mod.elements _ element set
    rw [List.getElem?_eq_getElem lt] at unknown
    cases unknown

theorem step_long (frames : s.frames = fr :: outer) {byte : UInt8} (here : f.code[fr.ip]? = some byte)
    (opcode : Opcode.ofByte byte = some .brTable) (operand : fr.valueBasePtr + 4 * 1 ≤ fr.valueStackPtr)
    (long : LongLabel f.code (fr.ip + 1) (s.tested fr).toNat) (num : Numerics) (ans : Answer) :
    s.step m num ans = .error (.abort .leb) := by
  have followed := h.followed mod
  obtain ⟨byte', k, rfl, here', opcode', immediates⟩ := h.fetched mod
  obtain rfl := Option.some.inj (here.symm.trans here')
  have isTable : (i.rewritten wide).opcode = .brTable := Option.some.inj (opcode'.symm.trans opcode)
  have now : s.frame = .ok fr := Interp.frame_eq_ok.mpr (by rw [frames]; rfl)
  rw [Interp.step_eq_exec now h.func here opcode]
  generalize i.rewritten wide = j at isTable immediates
  rw [isTable] at immediates
  obtain ⟨depths, rfl⟩ := j.eq_brTable isTable
  obtain ⟨⟨count, size⟩, read, labels⟩ := Option.bind_eq_some_iff.mp immediates
  obtain ⟨⟨_, sizes⟩, -, labels⟩ := Option.bind_eq_some_iff.mp labels
  obtain ⟨v, read, -⟩ := decodeU32_eq read
  have pos : 0 < size := decodeLEB_pos read
  have length : size + sizes = k := (Prod.ext_iff.mp (Option.some.inj labels)).2
  exact exec_brTable_long frames immediates (by omega) operand long

end Fetches

/-! ## Runs -/

section Run

variable (mod : Loaded ctx m body) {func : Nat} (here : m.functions[func]? = some f) (bytecode : f.native = false)
  {num : Numerics} {args : List UInt32} {inst : Instance} {init : Interp} {answers : List Answer}

include mod

theorem enter_located (here : m.functions[func]? = some f) (bytecode : f.native = false)
    (entered : Interp.enter f func args inst = some init) : Located ctx m body init := by
  obtain ⟨frames, -, cache⟩ := Interp.enter_frames entered
  refine ⟨?_, ?_⟩
  · rw [frames]
    exact List.forall_mem_singleton.mpr (Fetches.entered mod here bytecode _ _)
  · rw [cache]
    exact fun none => nomatch none

/-- **A turn of the loop** keeps every frame at an instruction. -/
theorem Located.step (h : Located ctx m body s) {ans : Answer} (step : s.step m num ans = .ok s') :
    Located ctx m body s' := by
  cases frames : s.frames with
  | nil =>
    rw [Interp.step, Interp.frame, frames] at step
    cases step
  | cons fr outer =>
    obtain ⟨f, l, i, n, wide, l', fetches⟩ := (h.frames fr (by rw [frames]; exact List.mem_cons_self)).fetches mod
    exact fetches.located mod frames h ((fetches.step_moves mod frames num ans).ok step)

theorem run_located (start : Located ctx m body init)
    (run : (interpreter m num init).run init answers = some s) : Located ctx m body s := by
  have keeps (s : Interp) (ans : Answer) (s' : Interp) (before : Located ctx m body s) (_ : True)
      (step : (interpreter m num init).step s ans = some s') : Located ctx m body s' :=
    before.step mod (toOption_eq_some.mp step)
  exact System.run_invariant keeps start (System.along_true _ _) run

end Run

/-! ## Agreement -/

/-- **The searches in the code of a function** go from start to start, as the loader has, and end at one. -/
structure Scans (ctx : ModuleContext) (fn : CodeEntry) (func : Nat) (code : List UInt8) : Prop where
  find : ∀ {l l' : FunctionLoader} {g : Find}, Visited ctx fn l → Next ctx fn l l' → g.ptr = l.ptr →
    ∃ g', g.step func code = some g' ∧ g'.ptr = l'.ptr
  skip : ∀ {l l' : FunctionLoader}, Visited ctx fn l → Next ctx fn l l' →
    ∃ op k, code[l.ptr]?.bind Opcode.ofByte = some op ∧ skipImmediates op (code.drop (l.ptr + 1)) = some k ∧
      l'.ptr = l.ptr + 1 + k
  skipped : ∀ {ip}, IsStart ctx fn ip → ∃ p, skipCurrentBlock code ip = .found p ∧ IsStart ctx fn p

theorem LoadedFunction.scans {fn : CodeEntry} {t : FunctionLoader} (h : LoadedFunction ctx fn t f) (func : Nat) :
    Scans ctx fn func f.code where
  find {l l' g} visited next ptr := by
    obtain ⟨i, n, wide, turn⟩ := Next.turn next
    obtain ⟨byte, k, here, opcode, finds, -, next⟩ := turn.seen visited h.loaded
    refine ⟨g.visit func (i.rewritten wide).opcode (g.ptr + 1 + k), ?_, ?_⟩
    · rw [Find.step, h.code, ptr, here]
      show (Opcode.ofByte byte >>= fun op => _) = _
      rw [opcode]
      show (findImmediates _ _ >>= fun n => _) = _
      rw [finds]
      rfl
    · rw [Find.visit_ptr, ptr, next]
  skip {l l'} visited next := by
    obtain ⟨i, n, wide, turn⟩ := Next.turn next
    obtain ⟨byte, k, here, opcode, -, skips, next⟩ := turn.seen visited h.loaded
    rw [h.code, here]
    exact ⟨(i.rewritten wide).opcode, k, opcode, skips, next⟩
  skipped {ip} start := by
    obtain ⟨l, visited, rfl, opened⟩ := start
    obtain ⟨b, bs, here⟩ := List.exists_cons_of_ne_nil opened
    obtain ⟨l₁, b₁, found, visited₁, -, here₁, -⟩ :=
      skipLoopFrom_ends h.loaded t.code.length visited (show l.blocks = [] ++ b :: bs from here) (Nat.le_add_right _ _)
    rw [h.code]
    exact ⟨l₁.ptr, found, l₁, visited₁, rfl, here₁ ▸ List.cons_ne_nil _ _⟩

/-- The interpreter is at a `br_table` that has to skip a label of more than two bytes. -/
def Interp.SkipsLongLabel (m : Module) (s : Interp) : Prop :=
  ∃ fr f, s.frames.head? = some fr ∧ m.functions[fr.funcIdx]? = some f ∧
    f.code[fr.ip]?.bind Opcode.ofByte = some .brTable ∧ fr.valueBasePtr + 4 * 1 ≤ fr.valueStackPtr ∧
    LongLabel f.code (fr.ip + 1) (s.tested fr).toNat

theorem FrameAt.starts {func ip : Nat} {ctrl : List BlockInfo} (h : FrameAt ctx m body func ip ctrl) :
    IsStart ctx (body func).1 ip ∧ ∀ block ∈ ctrl, IsStart ctx (body func).1 block.targetAddr := by
  obtain ⟨f, l, -, -, at_⟩ := h
  refine ⟨at_.isStart, fun block mem => ?_⟩
  obtain ⟨j, lt, rfl⟩ := List.getElem_of_mem mem
  have dropped := List.forall₂_drop j at_.blocks
  have suffix := List.drop_suffix j l.blocks
  rw [List.drop_eq_getElem_cons lt] at dropped
  generalize l.blocks.drop j = blocks at dropped suffix
  cases dropped with
  | cons first rest => exact first.isStart at_.visited suffix

theorem Fetches.found_starts (mod : Loaded ctx m body) (h : Fetches ctx m body fr f l i n wide l')
    {cache cache' : BlockAddrCache} (ok : CacheOk (blockEnds ctx body) cache) (opens : i.opens.isSome)
    {e : Option Nat} {p : Nat}
    (found : findBlockAddr fr.funcIdx f.code (fr.ip + n) cache = some (⟨e, some p⟩, cache')) :
    IsStart ctx (body fr.funcIdx).1 p ∧ ∀ q ∈ e, IsStart ctx (body fr.funcIdx).1 q := by
  obtain ⟨⟨label, type⟩, opens⟩ := Option.isSome_iff_exists.mp opens
  obtain ⟨isEnd, -⟩ := h.found mod opens ok found
  refine ⟨isEnd.isStart, ?_⟩
  rintro q rfl
  obtain ⟨rfl, -, size, num, here⟩ := h.here.opens h.turn opens
  obtain ⟨l₁, l₂, b₁, wide₁, visited₁, turn₁, ptr₂, here₁, -⟩ :=
    Wasm.elsed_at (h.loaded mod).loaded (h.here.visited.tail h.turn) here isEnd
  have ptr₁ := turn₁.ptr
  exact ⟨l₁, visited₁, by omega, here₁ ▸ List.cons_ne_nil _ _⟩

section Agree

variable (mod : Loaded ctx m body) (located : Located ctx m body s)

include mod located

theorem Located.fetches (current : s.frames.head? = some fr) :
    ∃ outer, s.frames = fr :: outer ∧ ∃ f l i n wide l', Fetches ctx m body fr f l i n wide l' := by
  obtain ⟨outer, frames⟩ := List.head?_eq_some_iff.mp current
  exact ⟨outer, frames, (located.frames fr (by rw [frames]; exact List.mem_cons_self)).fetches mod⟩

theorem Located.finds_starts (current : s.frames.head? = some fr) (func : m.functions[fr.funcIdx]? = some f)
    (decoded : decode (f.code.drop fr.ip) = some (i, n)) (opens : i.opens.isSome) :
    ∃ e p cache, findBlockAddr fr.funcIdx f.code (fr.ip + n) s.cache = some (⟨e, some p⟩, cache) ∧
      IsStart ctx (body fr.funcIdx).1 p ∧ ∀ q ∈ e, IsStart ctx (body fr.funcIdx).1 q := by
  obtain ⟨outer, frames, f', l, i', n', wide, l', fetches⟩ := located.fetches mod current
  obtain rfl := Option.some.inj (func.symm.trans fetches.func)
  obtain ⟨rfl, rfl⟩ := Prod.mk.inj (Option.some.inj (decoded.symm.trans (fetches.decoded mod)))
  rw [Instr.opens_rewritten] at opens
  obtain ⟨⟨label, type⟩, opened⟩ := Option.isSome_iff_exists.mp opens
  obtain ⟨p, e, cache, found, -⟩ := fetches.finds mod opened located.cache
  exact ⟨e, p, cache, found, fetches.found_starts mod located.cache opens found⟩

theorem Located.step_long (long : s.SkipsLongLabel m) (num : Numerics) (ans : Answer) :
    s.step m num ans = .error (.abort .leb) := by
  obtain ⟨fr, g, current, found, opcode, operand, long⟩ := long
  obtain ⟨outer, frames, f, l, i, n, wide, l', fetches⟩ := located.fetches mod current
  obtain rfl := Option.some.inj (found.symm.trans fetches.func)
  obtain ⟨byte, here, opcode⟩ := Option.bind_eq_some_iff.mp opcode
  exact fetches.step_long mod frames here opcode operand long num ans

theorem Located.undecoded {num : Numerics} {ans : Answer} {a : Assertion} (decoding : a = .leb ∨ a = .code)
    (stops : s.step m num ans = .error (.abort a)) : s.SkipsLongLabel m := by
  cases current : s.frames.head? with
  | none =>
    rw [Interp.step, Interp.frame, List.head?_eq_none_iff.mp current] at stops
    cases stops
  | some fr =>
    obtain ⟨outer, frames, f, l, i, n, wide, l', fetches⟩ := located.fetches mod current
    have failure := (fetches.step_moves mod frames num ans).error stops
    obtain ⟨⟨depths, isTable⟩, operand, long⟩ := fetches.undecoded mod located.cache decoding failure
    obtain ⟨byte, k, -, here, opcode, -⟩ := fetches.fetched mod
    rw [isTable] at opcode
    refine ⟨fr, f, current, fetches.func, ?_, operand, long⟩
    rw [here]
    exact opcode

omit located in
/-- **The interpreter and the searches keep to the instruction starts that the loader has validated**, and a
step can decode what it executes exactly when it does not have to skip a label of more than two bytes. -/
theorem boundaries_agree_iff {func : Nat} (here : m.functions[func]? = some f) (bytecode : f.native = false)
    {args : List UInt32} {inst : Instance} {init : Interp} (entered : Interp.enter f func args inst = some init)
    {num : Numerics} {answers : List Answer} (run : (interpreter m num init).run init answers = some s) (ans : Answer) :
    (∀ idx g, m.functions[idx]? = some g → g.native = false → Scans ctx (body idx).1 idx g.code) ∧
    (∀ fr ∈ s.frames, IsStart ctx (body fr.funcIdx).1 fr.ip ∧
      ∀ block ∈ fr.ctrl, IsStart ctx (body fr.funcIdx).1 block.targetAddr) ∧
    (∀ fr g i n, s.frames.head? = some fr → m.functions[fr.funcIdx]? = some g →
      decode (g.code.drop fr.ip) = some (i, n) → i.opens.isSome →
      ∃ e p cache, findBlockAddr fr.funcIdx g.code (fr.ip + n) s.cache = some (⟨e, some p⟩, cache) ∧
        IsStart ctx (body fr.funcIdx).1 p ∧ ∀ q ∈ e, IsStart ctx (body fr.funcIdx).1 q) ∧
    ((s.step m num ans ≠ .error (.abort .leb) ∧ s.step m num ans ≠ .error (.abort .code)) ↔ ¬ s.SkipsLongLabel m) := by
  have located := run_located mod (enter_located mod here bytecode entered) run
  refine ⟨fun idx g found native => (mod.bodies found native).scans idx, fun fr mem => (located.frames fr mem).starts,
    fun fr g i n current found decoded opens => located.finds_starts mod current found decoded opens, ?_⟩
  constructor
  · rintro ⟨noLeb, -⟩ long
    exact noLeb (located.step_long mod long num ans)
  · intro short
    exact ⟨fun stops => short (located.undecoded mod (.inl rfl) stops),
      fun stops => short (located.undecoded mod (.inr rfl) stops)⟩

end Agree

end Runs

/-! ## A label of three bytes -/

namespace Tables

/-- `block; i32.const 1; br_table 0 0; end; end`. The first label is in three bytes, or in two. -/
def code (long : Bool) : List UInt8 :=
  [0x02, 0x40, 0x41, 0x01, 0x0e, 0x01] ++ (if long then [0x80, 0x80, 0x00] else [0x80, 0x00]) ++ [0x00, 0x0b, 0x0b]

def context : ModuleContext := ⟨[⟨[], none⟩], [⟨[], none⟩], [], false, false⟩

def entry (long : Bool) : CodeEntry := ⟨⟨[], none⟩, [], code long, by cases long <;> decide⟩

def final (long : Bool) : FunctionLoader :=
  (load context (entry long)).toOption.get (by cases long <;> decide +kernel)

theorem accepted (long : Bool) : load context (entry long) = .ok (final long) :=
  toOption_eq_some.mp (Option.some_get _).symm

def function (long : Bool) : FunctionInstance :=
  ⟨false, ⟨[], none⟩, [], (final long).code, (final long).typing.maxStackSize, (final long).typing.maxBlockDepth⟩

def module (long : Bool) : Module := ⟨[function long], [⟨[], none⟩], [], none, []⟩

theorem loaded (long : Bool) : Loaded context (module long) fun _ => (entry long, final long) where
  types := rfl
  functions := rfl
  globals := rfl
  elements _ none := nomatch none
  bodies {idx f} here _ := by
    cases idx with
    | zero =>
      cases here
      exact ⟨accepted long, rfl, rfl, rfl, rfl, rfl⟩
    | succ => cases here

def init (long : Bool) : Interp :=
  (Interp.enter (function long) 0 [] Growing.inst).get (by cases long <;> decide +kernel)

/-- The state at the `br_table`. -/
def atTable (long : Bool) : Option Interp :=
  (interpreter (module long) Growing.numerics (init long)).run (init long) [Growing.quiet, Growing.quiet]

/-- The loader accepts the label of three bytes, and the interpreter aborts on it. -/
theorem long_label_aborts : load context (entry true) = .ok (final true) ∧ ∃ s, atTable true = some s ∧
    s.step (module true) Growing.numerics Growing.quiet = .error (.abort .leb) := by
  refine ⟨accepted true, (atTable true).get (by decide +kernel), (Option.some_get _).symm, ?_⟩
  exact stopOf_eq_some.mp (by decide +kernel)

def skippedSizes (m : Module) (s : Interp) : Option (List Nat) := do
  let fr ← s.frames.head?
  let f ← m.functions[fr.funcIdx]?
  let (count, n) ← decodeU32 (f.code.drop (fr.ip + 1))
  some (labelSizes (min count (s.tested fr).toNat) (f.code.drop (fr.ip + 1 + n)))

theorem not_skipsLongLabel {m : Module} {s : Interp} {sizes : List Nat} (h : skippedSizes m s = some sizes)
    (short : ∀ size ∈ sizes, size ≤ 2) : ¬ s.SkipsLongLabel m := by
  rintro ⟨fr, f, current, found, -, -, count, n, read, size, mem, large⟩
  rw [skippedSizes, current] at h
  dsimp only [bind, Option.bind] at h
  rw [found] at h
  dsimp only at h
  rw [read] at h
  rw [Option.some.inj h] at mem
  exact absurd large (Nat.not_lt.mpr (short size mem))

theorem boundaries_agree_short : ∃ s, atTable false = some s ∧
    s.step (module false) Growing.numerics Growing.quiet ≠ .error (.abort .leb) := by
  have reached : atTable false = some ((atTable false).get (by decide +kernel)) := (Option.some_get _).symm
  have entered : Interp.enter (function false) 0 [] Growing.inst = some (init false) := (Option.some_get _).symm
  have sizes : skippedSizes (module false) ((atTable false).get (by decide +kernel)) = some [2] := by decide +kernel
  obtain ⟨-, -, -, agrees⟩ := boundaries_agree_iff (loaded false) rfl rfl entered reached Growing.quiet
  exact ⟨_, reached, (agrees.mpr (not_skipsLongLabel sizes (by decide))).1⟩

end Tables

end Dtvm.Wasm
