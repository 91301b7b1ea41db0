import Dtvm.Wasm.Moves

/-!
# Every instruction moves or fails

The interpreter reads the immediates of an instruction with readers of its own. They give what the decoder
gives, but for the labels that `br_table` skips, which may not have more than two bytes (`longLabel`).
-/

namespace Dtvm.Wasm

open Effect

section Readers

variable {code : List UInt8} {ip n v : Nat}

theorem readU32_of_decode (h : decodeU32 (code.drop ip) = some (v, n)) : Interp.readU32 code ip = .ok (v, ip + n) := by
  obtain ⟨value, number, rfl⟩ := decodeU32_eq h
  rw [Interp.readU32, readSafeLEBNumber_of_decode number]

theorem readU32_of_decodeZero (h : decodeZero (code.drop ip) = some ()) : Interp.readU32 code ip = .ok (0, ip + 1) := by
  obtain ⟨zero, -⟩ := Option.ite_none_right_eq_some.mp h
  rw [Interp.readU32]
  cases bytes : code.drop ip with
  | nil =>
    rw [bytes] at zero
    cases zero
  | cons b rest =>
    rw [bytes] at zero
    cases zero
    rfl

end Readers

section Exec

variable {m : Module} {num : Numerics} {ans : Answer} {f : FunctionInstance} {i : Instr} {ip k : Nat} {s : Interp}
  {fr : InterpFrame} {outer : List InterpFrame}

variable {F : Stop → Prop} {s₁ : Interp} {depths : List Nat} {idx : Nat} {t : BlockType}

theorem localAt_yields (now : Now s (fr :: outer) s₁) {next : Nat} {g : ValType → Nat × Nat}
    (cells : i.cells m f = (f.getLocalType idx).map g) (isVariable : i.variable? = true) :
    Yields (s₁.localAt f idx) (fun r => ∃ t, f.getLocalType idx = some t ∧ i.cells m f = some (g t) ∧
      r = (t.cellNum, fr.localPtr + 4 * f.getLocalOffset idx)) (Failure m f i next s fr) := by
  rw [Interp.localAt, now.frame]
  cases type : f.getLocalType idx with
  | none =>
    rw [type] at cells
    exact yields_error (.unknownVariable isVariable cells)
  | some t =>
    rw [type] at cells
    exact ⟨t, rfl, cells, rfl⟩

theorem cellNum_pos (t : ValType) : 0 < t.cellNum := by cases t <;> decide

theorem valueGet_yields (now : Now s (fr :: outer) s₁) {addr : Nat} (t : ValType)
    (low : fr.valueStackPtr < fr.valueBasePtr → F (.abort .valueStack))
    (outside : fr.valueBasePtr < addr + 4 * t.cellNum → F (.abort .valueStack)) (inside : fr.localPtr ≤ addr) :
    Yields (s₁.valueGet addr t.cellNum) (fun values => values.length = t.cellNum) F := by
  rw [Interp.valueGet, now.frame]
  refine yields_check (fun bad => ?_) fun _ => ?_
  · have pos := cellNum_pos t
    by_cases short : fr.valueStackPtr < fr.valueBasePtr
    · exact low short
    · exact outside (by omega)
  · show (readCells _ _ _).length = _
    rw [readCells, List.length_map, List.length_range]

theorem global_yields {α : Type} {next : Nat} {g : ValType → Nat × Nat} {go : ValType → Except Stop α} {post : α → Prop}
    (cells : i.cells m f = m.globalTypes[idx]?.map g) (isVariable : i.variable? = true)
    (known : ∀ t, m.globalTypes[idx]? = some t → i.cells m f = some (g t) → Yields (go t) post (Failure m f i next s fr)) :
    Yields (match m.globalTypes[idx]? with | none => .error (.abort .code) | some t => go t) post
      (Failure m f i next s fr) := by
  cases type : m.globalTypes[idx]? with
  | none =>
    rw [type] at cells
    exact yields_error (.unknownVariable isVariable cells)
  | some t =>
    rw [type] at cells
    exact known t type cells

theorem valueSet_yields (now : Now s (fr :: outer) s₁) {addr : Nat} (t : ValType)
    (values : List UInt32) (low : fr.valueStackPtr < fr.valueBasePtr → F (.abort .valueStack))
    (outside : fr.valueBasePtr < addr + 4 * t.cellNum → F (.abort .valueStack)) :
    Yields (s₁.valueSet addr values) (Now s (fr :: outer)) F := by
  rw [Interp.valueSet, now.frame]
  refine yields_check (fun bad => ?_) fun _ => now.setCells _
  have pos := cellNum_pos t
  by_cases short : fr.valueStackPtr < fr.valueBasePtr
  · exact low short
  · exact outside (by omega)

theorem immediate_u32 {g : Nat → Instr} (inj : Function.Injective g)
    (h : ((decodeU32 (f.code.drop ip)).bind fun r => some (g r.1, r.2)) = some (g idx, k)) :
    Interp.readU32 f.code ip = .ok (idx, ip + k) := by
  obtain ⟨⟨v, n⟩, read, h⟩ := Option.bind_eq_some_iff.mp h
  obtain ⟨same, rfl⟩ := Prod.ext_iff.mp (Option.some.inj h)
  obtain rfl := inj same
  exact readU32_of_decode read

theorem immediate_memArg {g : Nat → Nat → Instr}
    (h : ((decodeU32 (f.code.drop ip)).bind fun r => (decodeU32 ((f.code.drop ip).drop r.2)).bind
      fun q => some (g r.1 q.1, r.2 + q.2)) = some (i, k)) :
    ∃ align offset n, Interp.readU32 f.code ip = .ok (align, ip + n) ∧
      Interp.readU32 f.code (ip + n) = .ok (offset, ip + k) ∧ i = g align offset := by
  obtain ⟨⟨align, n⟩, first, h⟩ := Option.bind_eq_some_iff.mp h
  obtain ⟨⟨offset, n'⟩, second, h⟩ := Option.bind_eq_some_iff.mp h
  cases h
  rw [List.drop_drop] at second
  refine ⟨align, offset, n, readU32_of_decode first, ?_, rfl⟩
  rw [← Nat.add_assoc]
  exact readU32_of_decode second

theorem immediate_block {g : BlockType → Instr}
    (h : ((decodeBlockType (f.code.drop ip)).bind fun t => some (g t, 1)) = some (i, k)) :
    ∃ t, Interp.blockCells f.code ip = .ok t.cellNum ∧ i = g t ∧ k = 1 := by
  obtain ⟨t, read, h⟩ := Option.bind_eq_some_iff.mp h
  cases h
  rw [decodeBlockType, List.head?_drop] at read
  exact ⟨t, by rw [Interp.blockCells, read], rfl, rfl⟩

/-- An instruction and the length of its immediates, which follow its opcode. -/
abbrev FunctionInstance.Decodes (f : FunctionInstance) (ip : Nat) (i : Instr) (k : Nat) : Prop :=
  decodeImmediates i.opcode (f.code.drop ip) = some (i, k)

/-- The label that `br_table` takes, unless it has to skip one of more than two bytes. -/
theorem brTable_label (decoded : f.Decodes ip (.brTable depths) k)
    (followed : ip + k < f.code.length) (idx : Nat) :
    ∃ count n depth, Interp.readU32 f.code ip = .ok (count, ip + n) ∧ depth ∈ depths ∧
      (LongLabel f.code ip idx → Interp.skipLabels f.code (min count idx) (ip + n) = .error (.abort .leb)) ∧
      (¬ LongLabel f.code ip idx → ∃ ip₁ ip₂, Interp.skipLabels f.code (min count idx) (ip + n) = .ok ip₁ ∧
        Interp.readU32 f.code ip₁ = .ok (depth, ip₂)) := by
  obtain ⟨⟨count, n⟩, read, h⟩ := Option.bind_eq_some_iff.mp decoded
  obtain ⟨⟨depths', n'⟩, labels, h⟩ := Option.bind_eq_some_iff.mp h
  obtain ⟨same, rfl⟩ := Prod.ext_iff.mp (Option.some.inj h)
  obtain rfl := Instr.brTable.inj same
  dsimp only at labels followed
  rw [List.drop_drop] at labels
  obtain ⟨long, short, depth, size, target, here⟩ := skips_labels (k := min count idx) labels
    (by rw [List.length_drop]; omega) (Nat.lt_succ_of_le (Nat.min_le_left _ _))
  have iff : LongLabel f.code ip idx ↔
      ∃ size ∈ labelSizes (min count idx) (f.code.drop (ip + n)), 2 < size := by
    constructor
    · rintro ⟨count', n', read', h⟩
      obtain ⟨rfl, rfl⟩ := Prod.ext_iff.mp (Option.some.inj (read.symm.trans read'))
      exact h
    · exact fun h => ⟨count, n, read, h⟩
  refine ⟨count, n, depth, readU32_of_decode read, List.mem_of_getElem? here, fun h => ?_, fun h => ?_⟩
  · rw [Interp.skipLabels, long (iff.mp h)]
  · have all : ∀ size ∈ labelSizes (min count idx) (f.code.drop (ip + n)), size ≤ 2 := fun z mem =>
      Nat.le_of_not_lt fun large => h (iff.mpr ⟨z, mem, large⟩)
    rw [List.drop_drop] at target
    refine ⟨_, _, ?_, readU32_of_decode target⟩
    rw [Interp.skipLabels, short all]

def Executes (m : Module) (num : Numerics) (ans : Answer) (f : FunctionInstance) (i : Instr) (ip k : Nat) (s : Interp)
    (fr : InterpFrame) (outer : List InterpFrame) : Prop :=
  Yields (s.exec m num ans f i.opcode ip) (Move m f i (ip + k) s fr outer) (Failure m f i (ip + k) s fr)

variable (now : Now s (fr :: outer) s)

include now

omit now in
theorem goes_yields {x : Except Stop Interp} {pops pushes : Nat} {next ptr : Nat}
    (cells : i.cells m f = some (pops, pushes)) (here : ptr = fr.valueStackPtr - 4 * pops + 4 * pushes)
    (h : Yields x (Now s ({ fr with ip := next, valueStackPtr := ptr } :: outer)) (Failure m f i next s fr)) :
    Yields x (Move m f i next s fr outer) (Failure m f i next s fr) := by
  subst here
  exact yields_imp h fun _ now => .goes cells now

theorem exec_getLocal (decoded : f.Decodes ip (.getLocal idx) k) :
    Executes m num ans f (.getLocal idx) ip k s fr outer := by
  have read := immediate_u32 (fun _ _ => Instr.getLocal.inj) decoded
  refine yields_of_ok read (yields_bind (localAt_yields now rfl rfl) fun r ⟨t, type, cells, hr⟩ => ?_)
  subst hr
  refine goes_yields cells rfl (yields_bind (now.setIp _) fun s₁ now₁ => ?_)
  refine yields_bind (valueGet_yields now t (fun short => .low cells short)
    (fun outside => .locals rfl type outside) (Nat.le_add_right _ _)) fun values length => ?_
  exact now₁.pushed length rfl fun full => .high cells full

theorem exec_setLocal (decoded : f.Decodes ip (.setLocal idx) k) :
    Executes m num ans f (.setLocal idx) ip k s fr outer := by
  have read := immediate_u32 (fun _ _ => Instr.setLocal.inj) decoded
  refine yields_of_ok read (yields_bind (localAt_yields now rfl rfl) fun r ⟨t, type, cells, hr⟩ => ?_)
  subst hr
  refine goes_yields cells rfl (yields_bind (now.valuePop _ fun short => .low cells short)
    fun r ⟨_, _, now₁⟩ => ?_)
  refine yields_bind (valueSet_yields now₁ t _ (fun short => .low cells ?_)
    fun outside => .locals rfl type outside) fun s₁ now₂ => now₂.setIp _
  dsimp only at short
  omega

theorem exec_teeLocal (decoded : f.Decodes ip (.teeLocal idx) k) :
    Executes m num ans f (.teeLocal idx) ip k s fr outer := by
  have read := immediate_u32 (fun _ _ => Instr.teeLocal.inj) decoded
  refine yields_of_ok read (yields_bind (localAt_yields now rfl rfl) fun r ⟨t, type, cells, hr⟩ => ?_)
  subst hr
  refine yields_bind (now.valuePop _ fun short => .low cells short) fun r ⟨_, deep, _⟩ => ?_
  have same : fr.valueStackPtr = fr.valueStackPtr - 4 * t.cellNum + 4 * t.cellNum := by omega
  refine goes_yields cells same (yields_bind (valueSet_yields now t _ (fun short => .low cells ?_)
    fun outside => .locals rfl type outside) fun s₁ now₂ => now₂.setIp _)
  omega

theorem exec_getGlobal (decoded : f.Decodes ip (.getGlobal idx) k) :
    Executes m num ans f (.getGlobal idx) ip k s fr outer := by
  have read := immediate_u32 (fun _ _ => Instr.getGlobal.inj) decoded
  refine yields_of_ok read (global_yields rfl rfl fun t type cells => ?_)
  refine goes_yields cells rfl (yields_bind (now.setIp _) fun s₁ now₁ => ?_)
  refine now₁.pushed ?_ rfl fun full => .high cells full
  cases t <;> rfl

theorem exec_setGlobal (decoded : f.Decodes ip (.setGlobal idx) k) :
    Executes m num ans f (.setGlobal idx) ip k s fr outer := by
  have read := immediate_u32 (fun _ _ => Instr.setGlobal.inj) decoded
  refine yields_of_ok read (global_yields rfl rfl fun t type cells => ?_)
  refine goes_yields cells rfl (yields_bind (now.valuePop _ fun short => .low cells short) fun r ⟨_, _, now₁⟩ => ?_)
  have set : Now s _ (Interp.setGlobalCells idx r.1 r.2) := ⟨now₁.frames, now₁.top, now₁.cache, now₁.memory⟩
  exact set.setIp _

theorem exec_load {op : LoadOp} {align offset : Nat}
    (decoded : f.Decodes ip (.load op align offset) k) :
    Executes m num ans f (.load op align offset) ip k s fr outer := by
  obtain ⟨align', offset', n, first, second, same⟩ := immediate_memArg decoded
  obtain ⟨-, rfl, rfl⟩ := Instr.load.inj same
  refine yields_of_ok first (yields_of_ok second ?_)
  refine goes_yields rfl rfl (yields_bind (now.setIp _) fun s₁ now₁ => ?_)
  exact now₁.loadOp op _ .trap (fun none => .noMemory rfl none) (fun short => .low rfl short)
    fun full => .high rfl full

theorem exec_store {op : StoreOp} {align offset : Nat}
    (decoded : f.Decodes ip (.store op align offset) k) :
    Executes m num ans f (.store op align offset) ip k s fr outer := by
  obtain ⟨align', offset', n, first, second, same⟩ := immediate_memArg decoded
  obtain ⟨-, rfl, rfl⟩ := Instr.store.inj same
  refine yields_of_ok first (yields_of_ok second ?_)
  refine goes_yields rfl rfl (yields_bind (now.setIp _) fun s₁ now₁ => ?_)
  exact now₁.storeOp op _ .trap (fun none => .noMemory rfl none) fun short => .low rfl short

theorem exec_block (decoded : f.Decodes ip (.block t) k) :
    Executes m num ans f (.block t) ip k s fr outer := by
  obtain ⟨t', read, same, rfl⟩ := immediate_block decoded
  obtain rfl := Instr.block.inj same
  refine yields_of_ok read (yields_bind (now.findBlock _ _ fun none => .notFound rfl none)
    fun r ⟨cache, found, now₁⟩ => ?_)
  refine yields_bind (now₁.setIp _) fun s₁ now₂ => ?_
  refine yields_imp (now₂.blockPush _ _ _ fun full => .full rfl full) fun s' now₃ => ?_
  exact .opens (show (Instr.block t).opens = some (.block, t) from rfl) nofun found now₃

theorem exec_loop (decoded : f.Decodes ip (.loop t) k) :
    Executes m num ans f (.loop t) ip k s fr outer := by
  obtain ⟨t', read, same, rfl⟩ := immediate_block decoded
  obtain rfl := Instr.loop.inj same
  refine yields_of_ok read (yields_bind (now.setIp _) fun s₁ now₁ => ?_)
  exact yields_imp (now₁.blockPush _ _ _ fun full => .full rfl full) fun s' now₂ => .loops rfl now₂

theorem exec_if (decoded : f.Decodes ip (.if t) k) :
    Executes m num ans f (.if t) ip k s fr outer := by
  obtain ⟨t', read, same, rfl⟩ := immediate_block decoded
  obtain rfl := Instr.if.inj same
  refine yields_of_ok read (yields_bind (now.valuePop32 fun short => .untested short) fun r now₁ => ?_)
  refine yields_bind (now₁.findBlock _ _ fun none => .notFound rfl none) fun ⟨elsePtr, target, s₁⟩ ⟨cache, found, now₂⟩ => ?_
  refine yields_cases (fun taken => ?_) fun _ => ?_
  · refine yields_bind (now₂.setIp _) fun s₂ now₃ => ?_
    refine yields_imp (now₃.blockPush _ _ _ fun full => .full rfl full) fun s' now₄ => ?_
    exact .opens (show (Instr.if t).opens = some (.if, t) from rfl) nofun found now₄
  · cases elsePtr with
    | none => exact yields_imp (now₂.setIp _) fun s' now₃ => .skips rfl found now₃
    | some elsePtr =>
      refine yields_bind (now₂.setIp _) fun s₂ now₃ => ?_
      exact yields_imp (now₃.blockPush _ _ _ fun full => .full rfl full)
        fun s' now₄ => .elses rfl found now₄

theorem exec_else : Executes m num ans f .else ip 0 s fr outer := by
  refine yields_of_ok now.frame ?_
  cases ctrl : fr.ctrl with
  | nil => exact yields_error (.noBlock rfl ctrl)
  | cons block blocks => exact yields_imp (now.setIp _) fun s' now₁ => .else rfl ctrl now₁

theorem exec_end : Executes m num ans f .end ip 0 s fr outer := by
  refine yields_of_ok now.frame (yields_bind (now.setIp ip) fun s₁ now₁ => yields_cases (fun inner => ?_) fun last => ?_)
  · refine yields_of_ok now₁.frame ?_
    exact .ends rfl inner (now₁.setFrame _)
  · refine yields_imp (now₁.returnFrame f) fun s' ⟨frames', top, cache, memory⟩ => ?_
    exact .returns (.inr ⟨rfl, Nat.le_of_not_lt last⟩) frames' top cache memory

theorem exec_return : Executes m num ans f .return ip 0 s fr outer := by
  refine yields_imp (now.returnFrame f) fun s' ⟨frames', top, cache, memory⟩ => ?_
  exact .returns (.inl rfl) frames' top cache memory

omit now in
theorem branch_yields {next depth ptr : Nat} (now : Now s ({ fr with valueStackPtr := ptr } :: outer) s₁)
    (label : depth ∈ i.labels) : Yields (s₁.branch depth) (Move m f i next s fr outer) (Failure m f i next s fr) :=
  yields_imp (now.branch depth fun deep => .deep label deep) fun _ ⟨_, _, ctrl, now⟩ => .branches label ctrl now

theorem exec_br {depth : Nat} (decoded : f.Decodes ip (.br depth) k) :
    Executes m num ans f (.br depth) ip k s fr outer := by
  have read := immediate_u32 (fun _ _ => Instr.br.inj) decoded
  exact yields_of_ok read (branch_yields now (List.mem_singleton_self _))

theorem exec_brIf {depth : Nat} (decoded : f.Decodes ip (.brIf depth) k) :
    Executes m num ans f (.brIf depth) ip k s fr outer := by
  have read := immediate_u32 (fun _ _ => Instr.brIf.inj) decoded
  refine yields_of_ok read (yields_bind (now.valuePop32 fun short => .untested short) fun r now₁ => ?_)
  refine yields_cases (fun taken => branch_yields now₁ (List.mem_singleton_self _)) fun _ => ?_
  exact yields_imp (now₁.setIp _) fun s' now₂ => .falls rfl now₂

theorem exec_brTable (ip_eq : ip = fr.ip + 1)
    (decoded : f.Decodes ip (.brTable depths) k)
    (followed : ip + k < f.code.length) : Executes m num ans f (.brTable depths) ip k s fr outer := by
  obtain ⟨count, n, depth, read, label, long, short⟩ := brTable_label decoded followed (s.tested fr).toNat
  refine yields_of_ok read ?_
  have value : Effect.Ends s.valuePop32 fun r => fr.valueBasePtr + 4 * 1 ≤ fr.valueStackPtr ∧ r.1 = s.tested fr := by
    have cells : Effect.Ends (s.valuePop 1) fun r => fr.valueBasePtr + 4 * 1 ≤ fr.valueStackPtr ∧
        r.1 = readCells s.cells (fr.valueStackPtr - 4 * 1) 1 :=
      ends_of_ok now.frame (ends_check fun deep => ends_ok ⟨Nat.le_of_not_lt deep, rfl⟩)
    exact ends_bind cells fun r h => ends_ok ⟨h.1, congrArg (List.headD · 0) h.2⟩
  refine yields_bind ((now.valuePop32 fun short => .untested short).and value) fun r ⟨⟨operand, same⟩, now₁⟩ => ?_
  dsimp only
  rw [same]
  by_cases h : LongLabel f.code ip (s.tested fr).toNat
  · rw [long h]
    exact yields_error (.longLabel rfl operand (ip_eq ▸ h))
  · obtain ⟨ip₁, ip₂, skipped, target⟩ := short h
    exact yields_of_ok skipped (yields_of_ok target (branch_yields now₁ label))

omit now in
theorem exec_brTable_long (frames : s.frames = fr :: outer) (decoded : f.Decodes ip (.brTable depths) k)
    (followed : ip + k < f.code.length) (operand : fr.valueBasePtr + 4 * 1 ≤ fr.valueStackPtr)
    (h : LongLabel f.code ip (s.tested fr).toNat) : s.exec m num ans f .brTable ip = .error (.abort .leb) := by
  have now : s.frame = .ok fr := Interp.frame_eq_ok.mpr (by rw [frames]; rfl)
  obtain ⟨count, n, depth, read, -, long, -⟩ := brTable_label decoded followed (s.tested fr).toNat
  have popped : s.valuePop32 =
      .ok (s.tested fr, s.setFrame { fr with valueStackPtr := fr.valueStackPtr - 4 * 1 }) := by
    rw [Interp.valuePop32, Interp.valuePop, now]
    show (if fr.valueStackPtr < fr.valueBasePtr + 4 * 1 then _ else _ : Except Stop _) >>= _ = _
    rw [if_neg (Nat.not_lt.mpr operand)]
    rfl
  show (Interp.readU32 f.code ip >>= fun r => _) = _
  rw [read]
  rw [popped]
  show (Interp.skipLabels f.code (min count (s.tested fr).toNat) (ip + n) >>= fun r => _) = _
  rw [long h]
  rfl

omit now in
theorem call_yields {next : Nat} {callee : FunctionInstance} (calls : i.Calls m idx callee)
    (now : Now s (fr.goTo next i.tested 0 :: outer) s₁) :
    Yields (s₁.callFuncInst idx callee ans) (Move m f i next s fr outer) (Failure m f i next s fr) := by
  cases native : callee.native with
  | true =>
    have host : s₁.callFuncInst idx callee ans = s₁.callNative callee ans := if_pos native
    rw [host]
    have ptr : (fr.goTo next i.tested 0).valueStackPtr - 4 * callee.numParamCells =
        fr.valueStackPtr - 4 * (i.tested + callee.numParamCells) := by
      show fr.valueStackPtr - 4 * i.tested + 4 * 0 - 4 * callee.numParamCells = _
      omega
    refine yields_imp (now.callNative callee ans .trap (fun short => .hostLow calls native ?_)
      fun full => .hostHigh calls native ?_) fun s' now₁ => .hosts calls native ?_
    · replace short : fr.valueStackPtr - 4 * i.tested + 4 * 0 < fr.valueBasePtr + 4 * callee.numParamCells := short
      omega
    · rw [ptr] at full
      exact full
    · rw [ptr] at now₁
      exact now₁
  | false =>
    refine yields_imp (now.callFuncInst idx callee ans native .trap) fun s' ⟨frames', top, cache, memory⟩ => ?_
    exact .calls calls native rfl frames' top cache memory

theorem exec_call (decoded : f.Decodes ip (.call idx) k) :
    Executes m num ans f (.call idx) ip k s fr outer := by
  have read := immediate_u32 (fun _ _ => Instr.call.inj) decoded
  refine yields_of_ok read (yields_bind (now.setIp _) fun s₁ now₁ => yields_cases (fun gas => ?_) fun noGas => ?_)
  · refine yields_imp (now₁.chargeGas .trap fun short => .gas rfl gas short) fun s' now₂ => ?_
    exact .charges rfl gas now₂
  · cases callee : m.functions[idx]? with
    | none => exact yields_error (.unknownFunction rfl callee)
    | some f' => exact call_yields ⟨callee, .inl ⟨rfl, noGas⟩⟩ now₁

theorem exec_callIndirect (decoded : f.Decodes ip (.callIndirect idx) k) :
    Executes m num ans f (.callIndirect idx) ip k s fr outer := by
  obtain ⟨⟨v, n⟩, read, h⟩ := Option.bind_eq_some_iff.mp decoded
  obtain ⟨-, -, h⟩ := Option.bind_eq_some_iff.mp h
  obtain ⟨same, rfl⟩ := Prod.ext_iff.mp (Option.some.inj h)
  obtain rfl := Instr.callIndirect.inj same
  refine yields_of_ok (readU32_of_decode read) (yields_bind (now.setIp _) fun s₁ now₁ => ?_)
  refine yields_bind (now₁.valuePop32 fun short => .untested short) fun r now₂ => ?_
  cases type : m.types[v]? with
  | none => exact yields_error (.unknownType rfl type)
  | some expected =>
    refine yields_check (fun _ => .trap _) fun _ => ?_
    cases element : m.elements[r.1.toNat]? with
    | none => exact yields_error (.trap _)
    | some funcIdx =>
      refine yields_check (fun _ => .trap _) fun set => ?_
      cases callee : m.functions[funcIdx.toNat]? with
      | none => exact yields_error (.unknownElement (List.mem_of_getElem? element) set callee)
      | some f' =>
        refine yields_check (fun _ => .trap _) fun typed => ?_
        have calls : (Instr.callIndirect v).Calls m funcIdx.toNat f' :=
          ⟨callee, .inr ⟨v, rfl, type.trans (congrArg some (not_not.mp typed).symm)⟩⟩
        exact call_yields calls now₂

omit now in
/-- **What an instruction does.** -/
theorem exec_moves (frames : s.frames = fr :: outer) (ip_eq : ip = fr.ip + 1) (decoded : f.Decodes ip i k)
    (followed : k = 0 ∨ ip + k < f.code.length) :
    Yields (s.exec m num ans f i.opcode ip) (Move m f i (ip + k) s fr outer) (Failure m f i (ip + k) s fr) := by
  have now : Now s (fr :: outer) s := .refl frames
  cases i with
  | unreachable => exact yields_error (.trap _)
  | nop =>
    cases decoded
    exact goes_yields rfl rfl (now.setIp ip)
  | block t => exact exec_block now decoded
  | loop t => exact exec_loop now decoded
  | «if» t => exact exec_if now decoded
  | «else» =>
    cases decoded
    exact exec_else now
  | «end» =>
    cases decoded
    exact exec_end now
  | br depth => exact exec_br now decoded
  | brIf depth => exact exec_brIf now decoded
  | brTable depths =>
    refine exec_brTable now ip_eq decoded (followed.resolve_left ?_)
    rintro rfl
    obtain ⟨⟨count, n⟩, read, h⟩ := Option.bind_eq_some_iff.mp decoded
    obtain ⟨⟨depths', n'⟩, -, h⟩ := Option.bind_eq_some_iff.mp h
    obtain ⟨v, number, -⟩ := decodeU32_eq read
    have pos := decodeLEB_pos number
    have length : n + n' = 0 := (Prod.ext_iff.mp (Option.some.inj h)).2
    omega
  | «return» =>
    cases decoded
    exact exec_return now
  | call idx => exact exec_call now decoded
  | callIndirect idx => exact exec_callIndirect now decoded
  | drop wide =>
    cases wide with
    | false | true =>
      cases decoded
      refine goes_yields rfl rfl (yields_bind (now.valuePop _ fun short => .low rfl short) fun r h => ?_)
      exact h.2.2.setIp ip
  | select wide =>
    cases wide with
    | false | true =>
      cases decoded
      refine goes_yields rfl rfl (yields_bind (now.setIp ip) fun s₁ now₁ => ?_)
      exact now₁.selectOp _ (fun short => .low rfl short) fun full => .high rfl full
  | getLocal idx => exact exec_getLocal now decoded
  | setLocal idx => exact exec_setLocal now decoded
  | teeLocal idx => exact exec_teeLocal now decoded
  | getGlobal idx => exact exec_getGlobal now decoded
  | setGlobal idx => exact exec_setGlobal now decoded
  | load op align offset => exact exec_load now decoded
  | store op align offset => exact exec_store now decoded
  | memorySize =>
    obtain ⟨_, read, h⟩ := Option.bind_eq_some_iff.mp decoded
    cases h
    refine yields_of_ok (readU32_of_decodeZero read) ?_
    refine yields_bind (now.memory_yields fun none => .noMemory rfl none) fun mem _ => ?_
    refine goes_yields rfl rfl (yields_bind (now.setIp _) fun s₁ now₁ => ?_)
    exact now₁.pushed rfl rfl fun full => .high rfl full
  | memoryGrow =>
    obtain ⟨_, read, h⟩ := Option.bind_eq_some_iff.mp decoded
    cases h
    refine yields_of_ok (readU32_of_decodeZero read) ?_
    refine goes_yields rfl rfl (yields_bind (now.setIp _) fun s₁ now₁ => ?_)
    exact now₁.memoryGrow ans (fun none => .noMemory rfl none) (fun short => .low rfl short)
      fun full => .high rfl full
  | i32Const v | i64Const v =>
    obtain ⟨⟨v', n⟩, read, h⟩ := Option.bind_eq_some_iff.mp decoded
    obtain ⟨-, rfl⟩ := Prod.ext_iff.mp (Option.some.inj h)
    rw [Instr.opcode, Interp.exec, readSafeLEBNumber_of_decode read]
    refine goes_yields rfl rfl (yields_bind (now.setIp (ip + n)) fun s₁ now₁ => ?_)
    exact now₁.pushed rfl rfl fun full => .high rfl full
  | f32Const bytes | f64Const bytes =>
    obtain ⟨_, read, h⟩ := Option.bind_eq_some_iff.mp decoded
    cases h
    refine goes_yields rfl rfl (yields_bind (now.setIp _) fun s₁ now₁ => ?_)
    exact now₁.pushed rfl rfl fun full => .high rfl full
  | numeric op =>
    cases decoded
    refine goes_yields rfl rfl (yields_bind (now.setIp ip) fun s₁ now₁ => ?_)
    exact now₁.numericOp num op .trap rfl (fun short => .low rfl short) fun full => .high rfl full

end Exec

end Dtvm.Wasm
