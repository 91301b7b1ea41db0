import Dtvm.Text.Decoder
import Dtvm.Wasm.BlockScan
import Dtvm.Wasm.Instr

/-!
# The decoders agree

An instruction that the loader decodes is as long for `findBlockAddr` and for `skipCurrentBlock`, whatever
the encoding of its immediates. It depends on its own bytes only, so the loader may rewrite the opcodes of
others.
-/

namespace Dtvm.Wasm

open Effect Decoder

/-! ## An instruction depends on its own bytes -/

theorem decodeLEB_local (t : IntType) : Local (decodeLEB t) := by
  refine ⟨fun {bytes v n} h => ?_⟩
  obtain ⟨some, h⟩ := Option.ite_none_left_eq_some.mp h
  obtain ⟨enc, rest, rfl, isLeb, rfl, short, last⟩ := readLEBNumber_isLeb some (toOption_eq_some.mp h)
  refine ⟨by rw [List.length_append]; omega, fun rest' => ?_⟩
  have some' : enc ++ rest' ≠ [] := by
    intro none
    rw [List.append_eq_nil_iff] at none
    rw [none.1] at isLeb
    cases isLeb
  rw [List.take_left, decodeLEB, if_neg some', readLEBNumber_of_isLeb isLeb short last]
  rfl

theorem decodeU32_local : Local decodeU32 := local_map (decodeLEB_local .uint32) BitVec.toNat

theorem decodeLabels_local : ∀ k, Local (decodeLabels k)
  | 0 => local_pure []
  | k + 1 => by
    refine (local_bind decodeU32_local fun depth => local_map (decodeLabels_local k) (depth :: ·)).congr ?_
    intro bytes
    simp only [decodeLabels, Option.bind_eq_bind, Option.bind_assoc, Option.bind_some]

theorem decodeZero_eq (bytes : List UInt8) :
    decodeZero bytes = bytes.head?.bind fun b => if b = 0 then some () else none := by
  rw [decodeZero]
  cases bytes with
  | nil => rfl
  | cons b bytes =>
    simp only [List.head?_cons, Option.some.injEq, Option.bind_some]

theorem decodeImmediates_local (op : Opcode) : Local (decodeImmediates op) := by
  have zero (i : Instr) : Local fun bytes => (decodeZero bytes).bind fun _ => some (i, 1) :=
    (local_head _ fun _ => i).congr fun bytes => by rw [decodeZero_eq]
  have memArg (f : Nat → Nat → Instr) : Local fun bytes => (decodeU32 bytes).bind fun r =>
      (decodeU32 (bytes.drop r.2)).bind fun q => some (f r.1 q.1, r.2 + q.2) := by
    refine (local_bind decodeU32_local fun align => local_map decodeU32_local (f align)).congr fun bytes => ?_
    simp only [Option.bind_assoc, Option.bind_some]
  have float (k : Nat) (f : List UInt8 → Instr) :
      Local fun bytes => (decodeBytes k bytes).bind fun b => some (f b, k) := by
    refine (local_map (local_take k) f).congr fun bytes => ?_
    rw [decodeBytes]
    split <;> rfl
  cases op with
  | block | loop | «if» => exact local_head _ _
  | br | brIf | call | getLocal | setLocal | teeLocal | getGlobal | setGlobal => exact local_map decodeU32_local _
  | brTable =>
    refine (local_bind decodeU32_local fun count =>
      local_map (decodeLabels_local (count + 1)) Instr.brTable).congr fun bytes => ?_
    simp only [decodeImmediates, Option.bind_eq_bind, Option.bind_assoc, Option.bind_some]
  | callIndirect =>
    refine (local_bind decodeU32_local fun idx => zero (.callIndirect idx)).congr fun bytes => ?_
    simp only [decodeImmediates, Option.bind_eq_bind, Option.bind_assoc, Option.bind_some]
  | load op | store op => exact memArg _
  | memorySize | memoryGrow => exact zero _
  | i32Const => exact local_map (decodeLEB_local .int32) _
  | i64Const => exact local_map (decodeLEB_local .int64) _
  | f32Const => exact float 4 _
  | f64Const => exact float 8 _
  | getGlobal64 | setGlobal64 => exact local_none
  | _ => exact local_pure _

theorem decode_local : Local decode := by
  refine (local_bind (local_head Opcode.ofByte id) decodeImmediates_local).congr fun bytes => ?_
  cases bytes with
  | nil => rfl
  | cons b bytes =>
    simp only [decode, List.head?_cons, Option.bind_some, Option.bind_eq_bind, Option.bind_assoc, id,
      List.drop_one, List.tail_cons, Nat.add_comm]

/-! ## Opcodes -/

def Instr.opcode : Instr → Opcode
  | .unreachable => .unreachable
  | .nop => .nop
  | .block _ => .block
  | .loop _ => .loop
  | .if _ => .if
  | .else => .else
  | .end => .end
  | .br _ => .br
  | .brIf _ => .brIf
  | .brTable _ => .brTable
  | .return => .return
  | .call _ => .call
  | .callIndirect _ => .callIndirect
  | .drop false => .drop
  | .drop true => .drop64
  | .select false => .select
  | .select true => .select64
  | .getLocal _ => .getLocal
  | .setLocal _ => .setLocal
  | .teeLocal _ => .teeLocal
  | .getGlobal _ => .getGlobal
  | .setGlobal _ => .setGlobal
  | .load op _ _ => .load op
  | .store op _ _ => .store op
  | .memorySize => .memorySize
  | .memoryGrow => .memoryGrow
  | .i32Const _ => .i32Const
  | .i64Const _ => .i64Const
  | .f32Const _ => .f32Const
  | .f64Const _ => .f64Const
  | .numeric op => .numeric op

variable {bytes : List UInt8} {i : Instr} {n : Nat}

theorem opcode_of_decodeImmediates {op : Opcode} (h : decodeImmediates op bytes = some (i, n)) : op = i.opcode := by
  cases op with
  | getGlobal64 | setGlobal64 => cases h
  | _ =>
    simp only [decodeImmediates, Option.bind_eq_bind, Option.bind_eq_some_iff] at h
    -- there are none, one or two numbers to read
    first
      | cases h
        rfl
      | obtain ⟨_, _, h⟩ := h
        cases h
        rfl
      | obtain ⟨_, _, _, _, h⟩ := h
        cases h
        rfl

theorem decode_inv (h : decode bytes = some (i, n)) : ∃ b rest k, bytes = b :: rest ∧ Opcode.ofByte b = some i.opcode ∧
      decodeImmediates i.opcode rest = some (i, k) ∧ n = k + 1 := by
  cases bytes with
  | nil => cases h
  | cons b rest =>
    obtain ⟨op, opcode, h⟩ := Option.bind_eq_some_iff.mp h
    obtain ⟨⟨i', k⟩, immediates, h⟩ := Option.bind_eq_some_iff.mp h
    cases h
    have same := opcode_of_decodeImmediates immediates
    exact ⟨b, rest, k, rfl, same ▸ opcode, same ▸ immediates, rfl⟩

theorem decode_pos (h : decode bytes = some (i, n)) : 0 < n := by
  obtain ⟨b, rest, k, -, -, -, rfl⟩ := decode_inv h
  exact Nat.succ_pos k

theorem Instr.eq_brTable (i : Instr) (h : i.opcode = .brTable) : ∃ depths, i = .brTable depths := by
  cases i with
  | brTable depths => exact ⟨depths, rfl⟩
  | drop wide | select wide => cases wide <;> cases h
  | _ => cases h

def Instr.opens : Instr → Option (LabelType × BlockType)
  | .block t => some (.block, t)
  | .loop t => some (.loop, t)
  | .if t => some (.if, t)
  | _ => none

def Instr.plain : Instr → Bool
  | .block _ | .loop _ | .if _ | .else | .end => false
  | _ => true

theorem Instr.opens_of_plain (h : i.plain = true) : i.opens = none := by
  cases i with
  | block | loop | «if» => cases h
  | _ => rfl

def Instr.bare : Instr → Bool
  | .unreachable | .nop | .else | .end | .return | .drop _ | .select _ | .numeric _ => true
  | _ => false

theorem decode_bare_length (h : decode bytes = some (i, n)) (bare : i.bare = true) : n = 1 := by
  obtain ⟨_, _, k, -, -, immediates, rfl⟩ := decode_inv h
  cases i with
  | drop w | select w =>
    cases w <;> exact congrArg (· + 1) (Prod.ext_iff.mp (Option.some.inj immediates)).2.symm
  | unreachable | nop | «else» | «end» | «return» | numeric op =>
    exact congrArg (· + 1) (Prod.ext_iff.mp (Option.some.inj immediates)).2.symm
  | _ => cases bare

/-! ## Skipping -/

section Skip

variable {t : IntType} {bytes : List UInt8} {n : Nat}

variable {v : BitVec t.width}

section

variable (h : decodeLEB t bytes = some (v, n))

include h

/-- A number is skipped as one of another type if it is no longer than that type allows. -/
theorem skipLEBNumber_eq (t' : IntType)
    (more : n < bytes.length) : skipLEBNumber t' bytes = if n ≤ t'.maxBytes then some n else none := by
  obtain ⟨some, h⟩ := Option.ite_none_left_eq_some.mp h
  obtain ⟨enc, rest, rfl, isLeb, rfl, -, -⟩ := readLEBNumber_isLeb some (toOption_eq_some.mp h)
  refine skipLEBNumber_isLeb t' isLeb ?_
  rintro rfl
  rw [List.append_nil] at more
  exact Nat.lt_irrefl _ more

theorem skipLEBNumber_of_decode {t' : IntType}
    (wide : t.maxBytes ≤ t'.maxBytes) (more : n < bytes.length) : skipLEBNumber t' bytes = some n := by
  have short : n ≤ t.maxBytes := by
    obtain ⟨some, h⟩ := Option.ite_none_left_eq_some.mp h
    obtain ⟨enc, rest, -, -, -, short, -⟩ := readLEBNumber_isLeb some (toOption_eq_some.mp h)
    exact short
  rw [skipLEBNumber_eq h t' more, if_pos (Nat.le_trans short wide)]

theorem readSafeLEBNumber_of_decode : readSafeLEBNumber t bytes = some (v, n) := by
  obtain ⟨some, h⟩ := Option.ite_none_left_eq_some.mp h
  exact readSafeLEBNumber_of_read some (toOption_eq_some.mp h)

theorem decodeLEB_pos : 0 < n := by
  obtain ⟨some, h⟩ := Option.ite_none_left_eq_some.mp h
  obtain ⟨enc, rest, -, isLeb, rfl, -⟩ := readLEBNumber_isLeb some (toOption_eq_some.mp h)
  exact isLeb.length_pos

end

theorem decodeU32_eq {k : Nat} (h : decodeU32 bytes = some (k, n)) :
    ∃ v, decodeLEB .uint32 bytes = some (v, n) ∧ v.toNat = k := by
  obtain ⟨⟨v, m⟩, read, h⟩ := Option.bind_eq_some_iff.mp h
  cases h
  exact ⟨v, read, rfl⟩

theorem skipLEBNumber_of_decodeU32 {k : Nat} (h : decodeU32 bytes = some (k, n)) {t' : IntType}
    (wide : IntType.uint32.maxBytes ≤ t'.maxBytes) (more : n < bytes.length) : skipLEBNumber t' bytes = some n := by
  obtain ⟨v, h, -⟩ := decodeU32_eq h
  exact skipLEBNumber_of_decode h wide more

theorem skips_of_decodeLabels : ∀ {k : Nat} {bytes : List UInt8} {depths : List Nat} {n : Nat},
    decodeLabels k bytes = some (depths, n) → n < bytes.length → skips (List.replicate k .uint32) bytes = some n
  | 0, _, _, _, h, _ => by
    cases h
    rfl
  | k + 1, bytes, depths, n, h, more => by
    obtain ⟨⟨depth, n₁⟩, first, h⟩ := Option.bind_eq_some_iff.mp h
    obtain ⟨⟨depths', n₂⟩, others, h⟩ := Option.bind_eq_some_iff.mp h
    obtain ⟨-, rfl⟩ := Prod.ext_iff.mp (Option.some.inj h)
    dsimp only at others more
    have more₁ : n₁ < bytes.length := by omega
    have more₂ : n₂ < (bytes.drop n₁).length := by
      rw [List.length_drop]
      omega
    rw [List.replicate_succ, skips, skipLEBNumber_of_decodeU32 first (Nat.le_refl _) more₁]
    show (skips _ (bytes.drop n₁)).bind _ = _
    rw [skips_of_decodeLabels others more₂]
    rfl

theorem length_of_map {α β : Type} {d : Option (α × Nat)} {f : α → β} {b : β}
    (h : (d.bind fun r => some (f r.1, r.2)) = some (b, n)) : ∃ a, d = some (a, n) := by
  obtain ⟨⟨a, m⟩, read, h⟩ := Option.bind_eq_some_iff.mp h
  cases h
  exact ⟨a, read⟩

theorem skipLEBNumber_of_decodeZero (h : decodeZero bytes = some ()) (more : 1 < bytes.length) :
    skipLEBNumber .uint32 bytes = some 1 := by
  cases bytes with
  | nil => cases h
  | cons b rest =>
    obtain ⟨zero, -⟩ := Option.ite_none_right_eq_some.mp h
    cases zero
    have some' : rest ≠ [] := by
      rintro rfl
      exact Nat.lt_irrefl _ more
    exact skipLEBNumber_isLeb .uint32 (.last rfl) some'

theorem skips_memArg {f : Nat → Nat → Instr} {i : Instr}
    (h : ((decodeU32 bytes).bind fun r => (decodeU32 (bytes.drop r.2)).bind fun q =>
      some (f r.1 q.1, r.2 + q.2)) = some (i, n)) (more : n < bytes.length) :
    skips [.uint32, .uint32] bytes = some n := by
  obtain ⟨⟨align, n₁⟩, first, h⟩ := Option.bind_eq_some_iff.mp h
  obtain ⟨⟨offset, n₂⟩, second, h⟩ := Option.bind_eq_some_iff.mp h
  cases h
  have labels : decodeLabels 2 bytes = some ([align, offset], n₁ + (n₂ + 0)) := by
    rw [decodeLabels, first]
    show ((decodeLabels 1 (bytes.drop n₁)).bind _) = _
    rw [decodeLabels, second]
    rfl
  exact skips_of_decodeLabels labels more

/-- **An instruction has one length**: for the loader, for `findBlockAddr` and for `skipCurrentBlock`. A byte
has to follow, as it does behind every instruction with immediates. -/
theorem immediates_of_decode {op : Opcode} {i : Instr} (h : decodeImmediates op bytes = some (i, n))
    (more : n = 0 ∨ n < bytes.length) : findImmediates op bytes = some n ∧ skipImmediates op bytes = some n := by
  have number {t : IntType} {f : BitVec t.width → Instr}
      (h : ((decodeLEB t bytes).bind fun r => some (f r.1, r.2)) = some (i, n)) {t' : IntType}
      (wide : t.maxBytes ≤ t'.maxBytes) : skipLEBNumber t' bytes = some n := by
    obtain ⟨k, h⟩ := length_of_map h
    have pos := decodeLEB_pos h
    exact skipLEBNumber_of_decode h wide (by omega)
  have u32 {f : Nat → Instr} (h : ((decodeU32 bytes).bind fun r => some (f r.1, r.2)) = some (i, n))
      {t : IntType} (wide : IntType.uint32.maxBytes ≤ t.maxBytes) : skipLEBNumber t bytes = some n := by
    obtain ⟨k, h⟩ := length_of_map h
    obtain ⟨v, h, -⟩ := decodeU32_eq h
    have pos := decodeLEB_pos h
    exact skipLEBNumber_of_decode h wide (by omega)
  have opened {f : BlockType → Instr} (h : ((decodeBlockType bytes).bind fun t => some (f t, 1)) = some (i, n)) :
      (bytes.head?.bind fun b => (blockTypeFromOpcode b).bind fun _ => some 1) = some n ∧ some 1 = some n := by
    obtain ⟨t, read, h⟩ := Option.bind_eq_some_iff.mp h
    obtain ⟨b, head, read⟩ := Option.bind_eq_some_iff.mp read
    cases h
    rw [head, Option.bind_some, read]
    exact ⟨rfl, rfl⟩
  have memArg {f : Nat → Nat → Instr} (h : ((decodeU32 bytes).bind fun r =>
      (decodeU32 (bytes.drop r.2)).bind fun q => some (f r.1 q.1, r.2 + q.2)) = some (i, n)) :
      skips [.uint32, .uint32] bytes = some n := by
    obtain ⟨⟨align, n₁⟩, first, h'⟩ := Option.bind_eq_some_iff.mp h
    obtain ⟨⟨offset, n₂⟩, second, h'⟩ := Option.bind_eq_some_iff.mp h'
    cases h'
    obtain ⟨v, first, -⟩ := decodeU32_eq first
    have pos := decodeLEB_pos first
    exact skips_memArg h (by dsimp only at *; omega)
  have zero {i' : Instr} (h : ((decodeZero bytes).bind fun _ => some (i', 1)) = some (i, n)) :
      skipLEBNumber .uint32 bytes = some n := by
    obtain ⟨_, read, h⟩ := Option.bind_eq_some_iff.mp h
    cases h
    exact skipLEBNumber_of_decodeZero read (by omega)
  have float {k : Nat} {f : List UInt8 → Instr}
      (h : ((decodeBytes k bytes).bind fun b => some (f b, k)) = some (i, n)) : k = n := by
    obtain ⟨b, read, h⟩ := Option.bind_eq_some_iff.mp h
    exact (Prod.ext_iff.mp (Option.some.inj h)).2
  cases op with
  | block | loop | «if» => exact opened h
  | br | brIf | call | getLocal | setLocal | teeLocal
  | getGlobal | setGlobal => exact ⟨u32 h (Nat.le_refl _), u32 h (Nat.le_refl _)⟩
  | brTable =>
    obtain ⟨⟨count, n₁⟩, first, h⟩ := Option.bind_eq_some_iff.mp h
    obtain ⟨⟨depths, n₂⟩, labels, h⟩ := Option.bind_eq_some_iff.mp h
    obtain ⟨-, rfl⟩ := Prod.ext_iff.mp (Option.some.inj h)
    obtain ⟨v, number, rfl⟩ := decodeU32_eq first
    have pos := decodeLEB_pos number
    dsimp only at more labels
    have skipped : skips (List.replicate (v.toNat + 1) .uint32) (bytes.drop n₁) = some n₂ :=
      skips_of_decodeLabels labels (by rw [List.length_drop]; omega)
    obtain ⟨-, read⟩ := Option.ite_none_left_eq_some.mp number
    constructor
    · rw [findImmediates, readSafeLEBNumber_of_decode number]
      show (skips _ (bytes.drop n₁)).bind _ = _
      rw [skipped]
      rfl
    · rw [skipImmediates, read]
      show (skips _ (bytes.drop n₁)).bind _ = _
      rw [skipped]
      rfl
  | callIndirect =>
    obtain ⟨⟨idx, n₁⟩, first, h⟩ := Option.bind_eq_some_iff.mp h
    obtain ⟨-, -, h⟩ := Option.bind_eq_some_iff.mp h
    cases h
    have skipped : skipLEBNumber .uint32 bytes = some n₁ :=
      skipLEBNumber_of_decodeU32 first (Nat.le_refl _) (by dsimp only at *; omega)
    constructor
    · rw [findImmediates, skipped]
      rfl
    · rw [skipImmediates, skipped]
      rfl
  | load op | store op => exact ⟨memArg h, memArg h⟩
  | memorySize | memoryGrow => exact ⟨zero h, zero h⟩
  | i32Const | i64Const => exact ⟨number h (Nat.le_refl _), number h (Nat.le_refl _)⟩
  | f32Const | f64Const => exact ⟨congrArg some (float h), congrArg some (float h)⟩
  | getGlobal64 | setGlobal64 => cases h
  | _ =>
    cases h
    exact ⟨rfl, rfl⟩

end Skip

/-! ## The labels of `br_table` -/

def labelSizes : Nat → List UInt8 → List Nat
  | 0, _ => []
  | k + 1, bytes =>
    match decodeU32 bytes with
    | none => []
    | some (_, n) => n :: labelSizes k (bytes.drop n)

theorem skips_labels : ∀ {k count : Nat} {bytes : List UInt8} {depths : List Nat} {n : Nat},
    decodeLabels count bytes = some (depths, n) → n < bytes.length → k < count →
    ((∃ size ∈ labelSizes k bytes, 2 < size) → skips (List.replicate k .uint8) bytes = none) ∧
    ((∀ size ∈ labelSizes k bytes, size ≤ 2) → skips (List.replicate k .uint8) bytes = some (labelSizes k bytes).sum) ∧
    ∃ depth size, decodeU32 (bytes.drop (labelSizes k bytes).sum) = some (depth, size) ∧ depths[k]? = some depth
  | 0, 0, _, _, _, _, _, lt => absurd lt (Nat.lt_irrefl 0)
  | 0, count + 1, bytes, depths, n, h, more, lt => by
    obtain ⟨⟨depth, n₁⟩, first, h⟩ := Option.bind_eq_some_iff.mp h
    obtain ⟨⟨depths', n₂⟩, others, h⟩ := Option.bind_eq_some_iff.mp h
    cases h
    exact ⟨fun ⟨_, mem, _⟩ => (nomatch mem), fun _ => rfl, depth, n₁, first, rfl⟩
  | k + 1, 0, _, _, _, _, _, lt => absurd lt (Nat.not_lt_zero _)
  | k + 1, count + 1, bytes, depths, n, h, more, lt => by
    obtain ⟨⟨depth, n₁⟩, first, h⟩ := Option.bind_eq_some_iff.mp h
    obtain ⟨⟨depths', n₂⟩, others, h⟩ := Option.bind_eq_some_iff.mp h
    obtain ⟨rfl, rfl⟩ := Prod.ext_iff.mp (Option.some.inj h)
    dsimp only at others more
    obtain ⟨long, short, depth', size, target, here⟩ := skips_labels (k := k) others
      (by rw [List.length_drop]; omega) (Nat.lt_of_succ_lt_succ lt)
    have sizes : labelSizes (k + 1) bytes = n₁ :: labelSizes k (bytes.drop n₁) := by rw [labelSizes, first]
    have skip : skipLEBNumber .uint8 bytes = if n₁ ≤ 2 then some n₁ else none := by
      obtain ⟨v, number, -⟩ := decodeU32_eq first
      exact skipLEBNumber_eq number .uint8 (by omega)
    rw [sizes, List.replicate_succ, skips, skip, List.sum_cons, ← List.drop_drop]
    refine ⟨?_, ?_, depth', size, target, here⟩
    · rintro ⟨z, mem, large⟩
      obtain rfl | mem := List.mem_cons.mp mem
      · rw [if_neg (by omega)]
        rfl
      · by_cases fits : n₁ ≤ 2
        · rw [if_pos fits]
          show (skips _ (bytes.drop n₁)).bind _ = _
          rw [long ⟨z, mem, large⟩]
          rfl
        · rw [if_neg fits]
          rfl
    · intro all
      rw [if_pos (all n₁ List.mem_cons_self)]
      show (skips _ (bytes.drop n₁)).bind _ = _
      rw [short fun z mem => all z (List.mem_cons_of_mem n₁ mem)]
      rfl

end Dtvm.Wasm
