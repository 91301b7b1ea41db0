import Mathlib.Logic.Relation
import Dtvm.Wasm.Decoders

/-!
# The instruction starts of a function

The loader goes through a function in turns, and where it is between two turns is the start of an
instruction (`Visited`). What a turn does to the control blocks is said once (`Reblocks`).
-/

namespace Dtvm.Wasm

open Effect

/-! ## What a turn does to the control blocks -/

/-- What an instruction at `ptr` does to the control blocks. -/
inductive Reblocks (ptr : Nat) : Instr → List ControlBlock → List ControlBlock → Prop
  | opens {i : Instr} {label : LabelType} {t : BlockType} (h : i.opens = some (label, t)) (size num : Nat)
      (bs : List ControlBlock) :
      Reblocks ptr i bs (⟨false, label, .value t, ptr + 2, none, size, num⟩ :: bs)
  | «else» {b : ControlBlock} (label : b.labelType = .if) (first : b.elsePtr = none) (bs : List ControlBlock) :
      Reblocks ptr .else (b :: bs) ({ b with elsePtr := some ptr, stackPolymorphic := false } :: bs)
  | «end» (b : ControlBlock) (bs : List ControlBlock) : Reblocks ptr .end (b :: bs) bs
  | stays {i : Instr} (plain : i.plain = true) (b : ControlBlock) (polymorphic : Bool) (bs : List ControlBlock) :
      Reblocks ptr i (b :: bs) ({ b with stackPolymorphic := polymorphic } :: bs)

namespace Typing

variable (v : Typing)

abbrev KeepsBlocks (v : Typing) (x : Except LoadError Typing) : Prop :=
  Effect.Ends x fun v' => v'.controlBlocks = v.controlBlocks

abbrev KeepsBlocksWith {α : Type} (v : Typing) (x : Except LoadError (α × Typing)) : Prop :=
  Effect.Ends x fun r => r.2.controlBlocks = v.controlBlocks

theorem KeepsBlocks.bind {v : Typing} {x : Except LoadError Typing} {go : Typing → Except LoadError Typing}
    (h : v.KeepsBlocks x) (rest : ∀ v' : Typing, v'.KeepsBlocks (go v')) : v.KeepsBlocks (x >>= go) :=
  ends_bind h fun v' h => ends_mono (rest v') fun _ h' => h'.trans h

theorem popValueType_blocks (t : WASMType) : v.KeepsBlocksWith (v.popValueType t) := by
  refine ends_after fun block => ends_ite (ends_ite (ends_ok rfl) (ends_error _)) ?_
  cases v.valueTypes with
  | nil => exact ends_error _
  | cons top types => exact ends_after fun _ => ends_ite (ends_error _) (ends_ok rfl)

theorem popVal_blocks (t : ValType) : v.KeepsBlocks (v.popVal t) :=
  ends_bind (v.popValueType_blocks _) fun _ h => ends_ok h

theorem popValueTypes_blocks : ∀ (ts : List ValType) (v : Typing), v.KeepsBlocks (popValueTypes ts v)
  | [], _ => ends_ok rfl
  | t :: ts, v => (popValueTypes_blocks ts v).bind fun v => v.popVal_blocks t

@[simp] theorem pushValueTypes_blocks : ∀ (ts : List ValType) (v : Typing),
    (v.pushValueTypes ts).controlBlocks = v.controlBlocks
  | [], _ => rfl
  | t :: ts, v => pushValueTypes_blocks ts (v.pushValueType (.val t))

theorem popAndPushValueType_blocks (n : Nat) (popped pushed : ValType) :
    v.KeepsBlocks (v.popAndPushValueType n popped pushed) :=
  (popValueTypes_blocks _ v).bind fun _ => ends_ok rfl

theorem callType_blocks (type : TypeEntry) : v.KeepsBlocks (v.callType type) :=
  (popValueTypes_blocks _ v).bind fun v => ends_ok (pushValueTypes_blocks _ v)

theorem checkBranch_blocks (depth : Nat) : v.KeepsBlocksWith (v.checkBranch depth) := by
  rw [checkBranch]
  cases v.controlBlocks[depth]? with
  | none => exact ends_error _
  | some target =>
    refine ends_after fun block => ends_ite ?_ (ends_after fun _ => ends_ok rfl)
    exact ends_bind (popValueTypes_blocks _ v) fun v' h => ends_ok ((pushValueTypes_blocks _ v').trans h)

theorem checkLabels_blocks (expected : List ValType) : ∀ (depths : List Nat) (v : Typing),
    v.KeepsBlocks (v.checkLabels expected depths)
  | [], _ => ends_ok rfl
  | depth :: depths, v =>
    ends_bind (v.checkBranch_blocks depth) fun r h => ends_ite (ends_error _)
      (ends_mono (checkLabels_blocks expected depths r.2) fun _ h' => h'.trans h)

theorem selectType_blocks : v.KeepsBlocksWith v.selectType :=
  ends_bind (v.popVal_blocks _) fun v₁ h₁ => ends_bind (v₁.popValueType_blocks _) fun r₂ h₂ =>
    ends_bind (r₂.2.popValueType_blocks _) fun _ h₃ =>
      ends_ite (ends_error _) (ends_ok (h₃.trans (h₂.trans h₁)))

theorem checkBlockStack_blocks : v.KeepsBlocks v.checkBlockStack := by
  refine ends_after fun block => ends_after fun block => ends_ite (ends_error _) (ends_ite ?_ ?_)
  · refine (popValueTypes_blocks _ v).bind fun v => ?_
    exact ends_ite (ends_error _) (ends_ite (ends_error _) (ends_ok (pushValueTypes_blocks _ v)))
  · exact ends_ite (ends_error _) (ends_after fun _ => ends_ok rfl)

theorem resetStack_blocks : v.KeepsBlocks v.resetStack := ends_after fun _ => ends_ok rfl

variable {b : ControlBlock} {bs : List ControlBlock}

variable (h : v.controlBlocks = b :: bs)

include h

theorem leave_blocks :
    Effect.Ends v.leave fun v' => v'.controlBlocks = { b with stackPolymorphic := true } :: bs := by
  refine ends_bind v.resetStack_blocks fun v' same => ends_ok ?_
  rw [setStackPolymorphic, same, h]

theorem brTable_blocks : ∀ depths : List Nat,
      Effect.Ends (v.brTable depths) fun v' => v'.controlBlocks = { b with stackPolymorphic := true } :: bs
  | [] => ends_error _
  | depth :: depths =>
    ends_bind (v.popVal_blocks _) fun v₁ h₁ => ends_bind (v₁.checkBranch_blocks depth) fun r₂ h₂ =>
      ends_bind (checkLabels_blocks _ depths r₂.2) fun v₃ h₃ =>
        v₃.leave_blocks (h₃.trans (h₂.trans (h₁.trans h)))

omit h in
theorem back_eq {v : Typing} (h : v.controlBlocks = b :: bs) : v.back = .ok b := by rw [Typing.back, h]

omit h in
theorem openBlock_blocks (label : LabelType) (t : BlockType) (start : Nat) :
    Effect.Ends (v.openBlock label t start) fun v' => v'.controlBlocks =
      ⟨false, label, .value t, start, none, v.stackSize, v.valueTypes.length⟩ :: v.controlBlocks :=
  ends_after fun _ => ends_ok (pushValueTypes_blocks _ _)

theorem elseBlock_blocks
    (ptr : Nat) : Effect.Ends (v.elseBlock ptr) fun v' => b.labelType = .if ∧ b.elsePtr = none ∧
      v'.controlBlocks = { b with elsePtr := some ptr, stackPolymorphic := false } :: bs := by
  refine ends_of_ok (back_eq h) (ends_check fun known => ?_)
  obtain ⟨label, first⟩ := not_or.mp known
  refine ends_bind v.checkBlockStack_blocks fun v₁ same => ends_bind (resetStack_blocks _) fun v₂ same₂ => ?_
  refine ends_after fun block => ends_ok ⟨not_not.mp label, not_not.mp first, ?_⟩
  rw [pushValueTypes_blocks, setStackPolymorphic, same₂, same, h]
  rfl

theorem endBlock_blocks (last : Bool) : Effect.Ends (v.endBlock last) fun v' => v'.controlBlocks = bs ∧
      (b.labelType = .function → bs = [] ∧ last = true) ∧
      (b.labelType = .if → b.elsePtr = none → b.blockType.isBalanced = true) := by
  refine ends_of_ok (back_eq h) (ends_bind v.checkBlockStack_blocks fun v₁ same => ends_check fun unbalanced => ?_)
  have popped : v₁.popBlock.controlBlocks = bs := by
    rw [popBlock, same, h]
    rfl
  have balanced (label : b.labelType = .if) (noElse : b.elsePtr = none) : b.blockType.isBalanced = true := by
    cases balanced : b.blockType.isBalanced with
    | true => rfl
    | false => exact absurd ⟨label, noElse, by rw [balanced]; rfl⟩ unbalanced
  refine ends_cases (fun label => ends_check fun one => ends_check fun notLast => ends_ok ⟨popped, ?_, balanced⟩)
    fun label => ends_ok ⟨popped, fun function => absurd function label, balanced⟩
  intro _
  rw [same, h, List.length_cons] at one
  refine ⟨List.eq_nil_of_length_eq_zero (by omega), ?_⟩
  cases last with
  | true => rfl
  | false => exact absurd rfl notLast

end Typing

section Check

variable (ctx : ModuleContext) (fn : CodeEntry)

/-- **What an instruction does to the control blocks.** -/
theorem Instr.check_blocks (ptr : Nat) (last : Bool) (i : Instr) {v : Typing} {b : ControlBlock}
    {bs : List ControlBlock} (h : v.controlBlocks = b :: bs) :
    Effect.Ends (i.check ctx fn ptr last v) fun r => Reblocks ptr i (b :: bs) r.1.controlBlocks := by
  have same {v' : Typing} (plain : i.plain = true) (keeps : v'.controlBlocks = v.controlBlocks) :
      Reblocks ptr i (b :: bs) v'.controlBlocks := by
    rw [keeps, h]
    exact .stays plain b b.stackPolymorphic bs
  have kept (plain : i.plain = true) {x : Except LoadError Typing} (keeps : v.KeepsBlocks x) :
      Effect.Ends (x >>= fun v => .ok (v, false)) fun r : Typing × Bool => Reblocks ptr i (b :: bs) r.1.controlBlocks :=
    ends_bind keeps fun v' keeps => ends_ok (same plain keeps)
  have left (plain : i.plain = true) {v' : Typing} (keeps : v'.controlBlocks = v.controlBlocks) :
      Effect.Ends (v'.leave >>= fun v => .ok (v, false)) fun r : Typing × Bool =>
        Reblocks ptr i (b :: bs) r.1.controlBlocks :=
    ends_bind (v'.leave_blocks (keeps.trans h)) fun v'' same => ends_ok (same ▸ .stays plain b _ bs)
  cases i with
  | unreachable => exact left rfl rfl
  | nop | i32Const n | i64Const n | f32Const bytes | f64Const bytes => exact ends_ok (same rfl rfl)
  | block t | loop t => exact ends_bind (v.openBlock_blocks _ _ _) fun _ h' => ends_ok (h' ▸ h ▸ .opens rfl _ _ _)
  | «if» t =>
    refine ends_bind (v.popVal_blocks _) fun v₁ keeps => ?_
    exact ends_bind (v₁.openBlock_blocks _ _ _) fun _ h' => ends_ok (h' ▸ keeps ▸ h ▸ .opens rfl _ _ _)
  | «else» =>
    exact ends_bind (v.elseBlock_blocks h ptr) fun v' ⟨label, first, h'⟩ => ends_ok (h' ▸ .else label first bs)
  | «end» =>
    refine ends_bind (v.endBlock_blocks h last) fun v' ⟨ended, _⟩ => ends_ok ?_
    rw [ended]
    exact .end b bs
  | br depth => exact ends_bind (v.checkBranch_blocks depth) fun r keeps => left rfl keeps
  | brIf depth =>
    exact ends_bind (v.popVal_blocks _) fun v₁ keeps => ends_bind (v₁.checkBranch_blocks depth) fun r keeps' =>
      ends_ok (same rfl (keeps'.trans keeps))
  | brTable depths =>
    exact ends_bind (v.brTable_blocks h depths) fun _ h' => ends_ok (h' ▸ .stays rfl b _ bs)
  | «return» => exact ends_bind (Typing.popValueTypes_blocks _ v) fun v₁ keeps => left rfl keeps
  | call idx => exact ends_after fun type => kept rfl (v.callType_blocks type)
  | callIndirect idx =>
    exact ends_after fun type => ends_ite (ends_error _) (ends_bind (v.popVal_blocks _) fun v₁ keeps =>
      ends_bind (v₁.callType_blocks type) fun v₂ keeps' =>
        ends_ok (same rfl (keeps'.trans keeps)))
  | drop wide =>
    cases wide with
    | false =>
      exact ends_bind (v.popValueType_blocks _) fun r keeps => ends_ok (same rfl keeps)
    | true => exact ends_error _
  | select wide =>
    cases wide with
    | false => exact ends_bind v.selectType_blocks fun r keeps => ends_ok (same rfl keeps)
    | true => exact ends_error _
  | getLocal idx => exact ends_after fun t => ends_ok (same rfl rfl)
  | setLocal idx => exact ends_after fun t => kept rfl (v.popVal_blocks t)
  | teeLocal idx =>
    exact ends_after fun t => ends_bind (v.popVal_blocks t) fun v₁ keeps => ends_ok (same rfl keeps)
  | getGlobal idx => exact ends_after fun g => ends_ok (same rfl rfl)
  | setGlobal idx => exact ends_after fun g => ends_ite (ends_error _) (kept rfl (v.popVal_blocks _))
  | load op align offset =>
    exact ends_after fun _ => kept rfl (v.popAndPushValueType_blocks _ _ _)
  | store op align offset =>
    exact ends_after fun _ => kept rfl (Typing.popValueTypes_blocks _ v)
  | memorySize => exact ends_ite (ends_error _) (ends_ok (same rfl rfl))
  | memoryGrow => exact ends_ite (ends_error _) (kept rfl (v.popAndPushValueType_blocks _ _ _))
  | numeric op => exact kept rfl (v.popAndPushValueType_blocks _ _ _)

theorem Instr.check_wide (ptr : Nat) (last : Bool) (i : Instr) (v : Typing) :
    Effect.Ends (i.check ctx fn ptr last v) fun r => r.2 = true → i = .drop false ∨ i = .select false := by
  cases i with
  | drop wide =>
    cases wide with
    | false => exact fun _ _ _ => .inl rfl
    | true => exact ends_error _
  | select wide =>
    cases wide with
    | false => exact fun _ _ _ => .inr rfl
    | true => exact ends_error _
  | _ =>
    -- the other instructions answer `false` where they answer
    repeat first
      | exact ends_error _
      | exact ends_ok nofun
      | refine ends_ite (ends_error _) ?_
      | refine ends_after fun _ => ?_

end Check

/-- A wide `drop` or `select` that the loader has rewritten. -/
def Instr.rewritten (wide : Bool) : Instr → Instr
  | .drop w => .drop (w || wide)
  | .select w => .select (w || wide)
  | i => i

theorem Instr.eq_of_rewritten {wide : Bool} {i j : Instr} (h : i.rewritten wide = j)
    (other : ∀ w, j ≠ .drop w ∧ j ≠ .select w) : i = j := by
  cases i with
  | drop w => exact absurd h.symm (other _).1
  | select w => exact absurd h.symm (other _).2
  | _ => exact h

theorem Instr.opens_rewritten (wide : Bool) (i : Instr) : (i.rewritten wide).opens = i.opens := by
  cases i <;> rfl

theorem Instr.plain_rewritten (wide : Bool) (i : Instr) : (i.rewritten wide).plain = i.plain := by
  cases i <;> rfl

/-! ## Turns -/

namespace FunctionLoader

section Turn

variable (ctx : ModuleContext) (fn : CodeEntry)

/-- A turn of the loop, at this instruction of `n` bytes, whose opcode is rewritten if it is wide. -/
structure Turn (s : FunctionLoader) (i : Instr) (n : Nat) (wide : Bool) (s' : FunctionLoader) : Prop where
  decoded : decode s.rest = some (i, n)
  checked : i.check ctx fn s.ptr (decide (s.ptr + n ≥ s.code.length)) s.typing = .ok (s'.typing, wide)
  ptr : s'.ptr = s.ptr + n
  code : s'.code = if wide then s.code.set s.ptr i.wideOpcode else s.code

theorem step_eq_ok {s s' : FunctionLoader} : s.step ctx fn = .ok s' ↔ ∃ i n wide, s.Turn ctx fn i n wide s' := by
  rw [← toOption_eq_some, step_eq]
  constructor
  · intro h
    obtain ⟨⟨i, n⟩, decoded, h⟩ := Option.bind_eq_some_iff.mp h
    obtain ⟨⟨v, wide⟩, checked, h⟩ := Option.bind_eq_some_iff.mp h
    cases h
    exact ⟨i, n, wide, decoded, toOption_eq_some.mp checked, rfl, rfl⟩
  · rintro ⟨i, n, wide, decoded, checked, ptr, code⟩
    rw [decoded, Option.bind_some, checked, toOption_ok, Option.bind_some]
    cases s'
    cases ptr
    cases code
    rfl

variable {ctx fn} {s s' : FunctionLoader} {i : Instr} {n : Nat} {wide : Bool}

variable (h : s.Turn ctx fn i n wide s')

include h

theorem Turn.pos : 0 < n := decode_pos h.decoded

theorem Turn.lt : s.ptr < s'.ptr := by
  have pos := h.pos
  have ptr := h.ptr
  omega

theorem Turn.le_length : s'.ptr ≤ s.code.length := by
  have fits := (decode_local.anywhere h.decoded).1
  have some := h.pos
  have ptr := h.ptr
  rw [rest, List.length_drop] at fits
  omega

@[simp] theorem Turn.code_length : s'.code.length = s.code.length := by
  rw [h.code]
  cases wide with
  | false => rfl
  | true => exact List.length_set

theorem Turn.code_take : s'.code.take s.ptr = s.code.take s.ptr := by
  rw [h.code]
  cases wide with
  | false => rfl
  | true => exact List.take_set_of_le (Nat.le_refl _)

theorem Turn.decode_after : decode (s'.code.drop s.ptr) = some (i.rewritten wide, n) := by
  have decoded := h.decoded
  cases wide with
  | false =>
    have same : i.rewritten false = i := by cases i <;> first | rfl | exact congrArg _ (Bool.or_false _)
    rw [h.code, same]
    exact decoded
  | true =>
    have here : s.ptr < s.code.length := Nat.lt_of_lt_of_le h.lt h.le_length
    have code : s'.code.drop s.ptr = i.wideOpcode :: s.code.drop (s.ptr + 1) := by
      rw [h.code, if_pos rfl, List.drop_eq_getElem_cons (by rw [List.length_set]; exact here),
        List.getElem_set_self, List.drop_set_of_lt (Nat.lt_succ_self _)]
    rw [code]
    obtain rfl | rfl := i.check_wide ctx fn _ _ _ _ h.checked rfl
    · obtain rfl := decode_bare_length decoded rfl
      rfl
    · obtain rfl := decode_bare_length decoded rfl
      rfl

end Turn

/-! ## Visited states -/

section Visited

variable (ctx : ModuleContext) (fn : CodeEntry)

def Next (s s' : FunctionLoader) : Prop := s.step ctx fn = .ok s'

abbrev Reaches : FunctionLoader → FunctionLoader → Prop := Relation.ReflTransGen (Next ctx fn)

def Visited (s : FunctionLoader) : Prop := Reaches ctx fn (start fn) s

variable {ctx fn} {s s' t : FunctionLoader} {i : Instr} {n : Nat} {wide : Bool}

theorem next_unique : Relator.RightUnique (Next ctx fn) := fun _ _ _ h h' => Except.ok.inj (h.symm.trans h')

theorem Turn.next (h : s.Turn ctx fn i n wide s') : Next ctx fn s s' := (step_eq_ok ctx fn).mpr ⟨i, n, wide, h⟩

theorem Next.turn (h : Next ctx fn s s') : ∃ i n wide, s.Turn ctx fn i n wide s' := (step_eq_ok ctx fn).mp h

section

variable (h : Reaches ctx fn s s')

include h

theorem Reaches.keeps {P : FunctionLoader → Prop}
    (turn : ∀ {s i n wide s'}, s.Turn ctx fn i n wide s' → P s → P s') (hs : P s) : P s' := by
  induction h with
  | refl => exact hs
  | tail _ next ih =>
    obtain ⟨i, n, wide, here⟩ := Next.turn next
    exact turn here ih

theorem Reaches.ptr_le : s.ptr ≤ s'.ptr :=
  Reaches.keeps (P := fun s' => s.ptr ≤ s'.ptr) h (fun turn le => Nat.le_trans le (Nat.le_of_lt turn.lt))
    (Nat.le_refl _)

theorem Reaches.code_length : s'.code.length = s.code.length :=
  Reaches.keeps (P := fun s' => s'.code.length = s.code.length) h (fun turn same => turn.code_length.trans same)
    rfl

theorem Reaches.code_take : s'.code.take s.ptr = s.code.take s.ptr := by
  induction h with
  | refl => rfl
  | @tail s₁ s₂ before next ih =>
    obtain ⟨i, n, wide, turn⟩ := Next.turn next
    have le : s.ptr ≤ s₁.ptr := Reaches.ptr_le before
    have same := congrArg (List.take s.ptr) turn.code_take
    rw [List.take_take, List.take_take, Nat.min_eq_left le] at same
    exact same.trans ih

end

/-- **The address determines the state.** -/
theorem Visited.eq_of_ptr (hs : Visited ctx fn s) (hs' : Visited ctx fn s') (same : s.ptr = s'.ptr) : s = s' := by
  have eq {s s' : FunctionLoader} (h : Reaches ctx fn s s') (same : s.ptr = s'.ptr) : s = s' := by
    obtain rfl | ⟨s₁, next, rest⟩ := Relation.ReflTransGen.cases_head h
    · rfl
    · obtain ⟨i, n, wide, turn⟩ := Next.turn next
      have lt := turn.lt
      have le := Reaches.ptr_le rest
      omega
  obtain h | h := Relation.ReflTransGen.total_of_right_unique next_unique hs hs'
  · exact eq h same
  · exact (eq h same.symm).symm

theorem Visited.tail (h : Visited ctx fn s) (turn : s.Turn ctx fn i n wide s') : Visited ctx fn s' :=
  Relation.ReflTransGen.tail h turn.next

/-! ## Loading -/

theorem loop_reaches : ∀ (fuel : Nat) {s t : FunctionLoader}, loop ctx fn fuel s = .ok t →
    Reaches ctx fn s t ∧ t.code.length ≤ t.ptr
  | 0, s, t, h => by
    obtain ⟨done, h⟩ := ite_error_eq_ok.mp h
    cases h
    exact ⟨.refl, Nat.le_of_not_lt done⟩
  | fuel + 1, s, t, h => by
    rw [loop] at h
    by_cases more : s.ptr < s.code.length
    · rw [if_pos more] at h
      obtain ⟨s', next, h⟩ := bind_eq_ok.mp h
      obtain ⟨reach, done⟩ := loop_reaches fuel h
      exact ⟨.head next reach, done⟩
    · rw [if_neg more] at h
      cases h
      exact ⟨.refl, Nat.le_of_not_lt more⟩

theorem load_eq_ok (h : load ctx fn = .ok t) :
    Visited ctx fn t ∧ t.typing.controlBlocks = [] ∧ t.ptr = t.code.length := by
  obtain ⟨t', looped, h⟩ := bind_eq_ok.mp h
  obtain ⟨closed, h⟩ := ite_error_eq_ok.mp h
  obtain ⟨ended, h⟩ := ite_error_eq_ok.mp h
  cases h
  exact ⟨(loop_reaches _ looped).1, List.eq_nil_of_length_eq_zero (by omega), not_not.mp ended⟩

theorem Turn.not_at_end (h : s.Turn ctx fn i n wide s') : s.ptr < s.code.length :=
  Nat.lt_of_lt_of_le h.lt h.le_length

theorem Visited.reaches_end (h : Visited ctx fn s) (loaded : load ctx fn = .ok t) : Reaches ctx fn s t := by
  obtain ⟨visited, -, done⟩ := load_eq_ok loaded
  obtain reach | reach := Relation.ReflTransGen.total_of_right_unique next_unique h visited
  · exact reach
  · obtain rfl | ⟨s', next, -⟩ := Relation.ReflTransGen.cases_head reach
    · exact .refl
    · obtain ⟨i, n, wide, turn⟩ := Next.turn next
      exact absurd turn.not_at_end (by omega)

end Visited

end FunctionLoader

end Dtvm.Wasm
