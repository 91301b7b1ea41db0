import Dtvm.Wasm.Leb
import Mathlib.Data.Nat.Bitwise
import Mathlib.Tactic.Ring

/-!
# LEB128 numbers of the specification

The grammar of the binary format for integers of `N` bits, as the specification has it: a byte that ends the
number has to fit into the bits that are left. `readLEBNumber` reads exactly these, `uint64_t` apart: it has no
check of a tenth byte. `LebExact` says what the three readers owe each other on a byte string, and `lebExact_iff`
which strings they meet it on.
-/

namespace Dtvm.Wasm

open Effect

namespace Spec

/-- `uN`. -/
inductive Unsigned : Nat → Nat → List UInt8 → Prop
  | last {N : Nat} {b : UInt8} (stop : b.toNat < 2 ^ 7) (fits : b.toNat < 2 ^ N) : Unsigned N b.toNat [b]
  | next {N m : Nat} {b : UInt8} {enc : List UInt8} (go : 2 ^ 7 ≤ b.toNat) (wide : 7 < N)
      (rest : Unsigned (N - 7) m enc) : Unsigned N (2 ^ 7 * m + (b.toNat - 2 ^ 7)) (b :: enc)

/-- `sN`. -/
inductive Signed : Nat → Int → List UInt8 → Prop
  | positive {N : Nat} {b : UInt8} (stop : b.toNat < 2 ^ 6) (fits : b.toNat < 2 ^ (N - 1)) :
      Signed N b.toNat [b]
  | negative {N : Nat} {b : UInt8} (sign : 2 ^ 6 ≤ b.toNat) (stop : b.toNat < 2 ^ 7)
      (fits : 2 ^ 7 ≤ b.toNat + 2 ^ (N - 1)) : Signed N (b.toNat - 2 ^ 7) [b]
  | next {N : Nat} {m : Int} {b : UInt8} {enc : List UInt8} (go : 2 ^ 7 ≤ b.toNat) (wide : 7 < N)
      (rest : Signed (N - 7) m enc) : Signed N (2 ^ 7 * m + (b.toNat - 2 ^ 7)) (b :: enc)

end Spec

/-! ## The groups of seven bits -/

theorem forall_byte {P : UInt8 → Prop} (h : ∀ n : Fin 256, P (UInt8.ofNat n)) (b : UInt8) : P b := by
  have here := h ⟨b.toNat, b.toNat_lt⟩
  rwa [UInt8.ofNat_toNat] at here

variable {b : UInt8} {w : Nat} {enc : List UInt8}

theorem more_eq_true : more b = true ↔ 2 ^ 7 ≤ b.toNat := by
  refine forall_byte (P := fun b => more b = true ↔ 2 ^ 7 ≤ b.toNat) ?_ b
  decide +kernel

theorem more_eq_false : more b = false ↔ b.toNat < 2 ^ 7 := by
  rw [← Bool.not_eq_true, more_eq_true, Nat.not_le]

def lebValue : List UInt8 → Nat
  | [] => 0
  | b :: enc => b.toNat % 2 ^ 7 + 2 ^ 7 * lebValue enc

theorem lebValue_lt : ∀ enc : List UInt8, lebValue enc < 2 ^ (7 * enc.length)
  | [] => Nat.one_pos
  | b :: enc => by
    have rest := lebValue_lt enc
    have low := Nat.mod_lt b.toNat (show 0 < 2 ^ 7 by decide)
    have split : 2 ^ (7 * (enc.length + 1)) = 2 ^ 7 * 2 ^ (7 * enc.length) := by
      rw [← Nat.pow_add]
      congr 1
      omega
    rw [lebValue, List.length_cons, split]
    omega

theorem or_shift {shift x c : Nat} (low : x < 2 ^ shift) (fits : x < 2 ^ w) :
    x ||| c * 2 ^ shift % 2 ^ w = (x + 2 ^ shift * c) % 2 ^ w := by
  rw [Nat.add_mod, Nat.mul_comm (2 ^ shift) c]
  by_cases le : shift ≤ w
  · have multiple : c * 2 ^ shift % 2 ^ w = 2 ^ shift * (c % 2 ^ (w - shift)) := by
      rw [Nat.mul_comm c, ← Nat.mul_mod_mul_left, ← Nat.pow_add, Nat.add_sub_cancel' le]
    have room : 2 ^ shift * (c % 2 ^ (w - shift)) + x < 2 ^ w := by
      have lt : c % 2 ^ (w - shift) + 1 ≤ 2 ^ (w - shift) := Nat.mod_lt c (Nat.two_pow_pos _)
      calc 2 ^ shift * (c % 2 ^ (w - shift)) + x
          < 2 ^ shift * (c % 2 ^ (w - shift)) + 2 ^ shift := Nat.add_lt_add_left low _
        _ = 2 ^ shift * (c % 2 ^ (w - shift) + 1) := by ring
        _ ≤ 2 ^ shift * 2 ^ (w - shift) := Nat.mul_le_mul_left _ lt
        _ = 2 ^ w := by rw [← Nat.pow_add, Nat.add_sub_cancel' le]
    rw [multiple, Nat.or_comm, ← Nat.two_pow_add_eq_or_of_lt low, Nat.mod_eq_of_lt fits, Nat.add_comm x,
      Nat.mod_eq_of_lt room]
  · have none : c * 2 ^ shift % 2 ^ w = 0 := by
      have split : 2 ^ shift = 2 ^ (shift - w) * 2 ^ w := by rw [← Nat.pow_add, Nat.sub_add_cancel (by omega)]
      rw [split, ← Nat.mul_assoc, Nat.mul_mod_left]
    rw [none, Nat.or_zero, Nat.add_zero, Nat.mod_mod, Nat.mod_eq_of_lt fits]

theorem take_result (s : LebLoop w) (b : UInt8) (low : s.result.toNat < 2 ^ s.shift) :
    (s.take b).result.toNat = (s.result.toNat + 2 ^ s.shift * (b.toNat % 2 ^ 7)) % 2 ^ w := by
  have group : (b &&& 0x7f).toBitVec.toNat = b.toNat % 2 ^ 7 := Nat.and_two_pow_sub_one_eq_mod b.toNat 7
  rw [← or_shift low s.result.isLt]
  show (s.result ||| (b &&& 0x7f).toBitVec.setWidth w <<< s.shift).toNat = _
  rw [BitVec.toNat_or, BitVec.toNat_shiftLeft, BitVec.toNat_setWidth, group, Nat.shiftLeft_eq, Nat.mod_mul_mod]

theorem groups_result : ∀ (enc : List UInt8) (s : LebLoop w), s.result.toNat < 2 ^ s.shift →
    (groups enc s).result.toNat = (s.result.toNat + 2 ^ s.shift * lebValue enc) % 2 ^ w
  | [], s, _ => by
    show s.result.toNat = (s.result.toNat + 2 ^ s.shift * 0) % 2 ^ w
    rw [Nat.mul_zero, Nat.add_zero, Nat.mod_eq_of_lt s.result.isLt]
  | b :: enc, s, low => by
    have here := take_result s b low
    have step : 2 ^ (s.take b).shift = 2 ^ s.shift * 2 ^ 7 := Nat.pow_add 2 s.shift 7
    have below : (s.take b).result.toNat < 2 ^ (s.take b).shift := by
      have group := Nat.mod_lt b.toNat (show 0 < 2 ^ 7 by decide)
      calc (s.take b).result.toNat ≤ s.result.toNat + 2 ^ s.shift * (b.toNat % 2 ^ 7) := here ▸ Nat.mod_le _ _
        _ < 2 ^ s.shift + 2 ^ s.shift * (b.toNat % 2 ^ 7) := Nat.add_lt_add_right low _
        _ = 2 ^ s.shift * (b.toNat % 2 ^ 7 + 1) := by ring
        _ ≤ 2 ^ s.shift * 2 ^ 7 := Nat.mul_le_mul_left _ group
        _ = 2 ^ (s.take b).shift := step.symm
    show (groups enc (s.take b)).result.toNat = _
    rw [groups_result enc (s.take b) below, here, step, Nat.mod_add_mod, lebValue]
    congr 1
    ring

theorem groups_start (enc : List UInt8) :
    (groups enc (LebLoop.start : LebLoop w)).result.toNat = lebValue enc % 2 ^ w := by
  have zero : (LebLoop.start : LebLoop w).result.toNat = 0 := BitVec.toNat_zero
  rw [groups_result enc _ (by rw [zero]; exact Nat.two_pow_pos _), zero]
  show (0 + 2 ^ 0 * lebValue enc) % 2 ^ w = _
  rw [Nat.pow_zero, Nat.one_mul, Nat.zero_add]

theorem result_start (enc : List UInt8) :
    (groups enc (LebLoop.start : LebLoop w)).result = BitVec.ofInt w (lebValue enc) := by
  apply BitVec.eq_of_toNat_eq
  rw [groups_start, BitVec.ofInt_natCast, BitVec.toNat_ofNat]

theorem shift_start (enc : List UInt8) : (groups enc (LebLoop.start : LebLoop w)).shift = 7 * enc.length :=
  (shift_groups enc _).trans (Nat.zero_add _)

def lastByte (enc : List UInt8) : UInt8 := enc.getLastD 0

theorem groups_byte : ∀ {enc : List UInt8} (s : LebLoop w), enc ≠ [] → (groups enc s).byte = lastByte enc
  | [_], _, _ => rfl
  | b :: c :: enc, s, _ => groups_byte (s.take b) (List.cons_ne_nil c enc)

theorem lastByte_cons (some : enc ≠ []) : lastByte (b :: enc) = lastByte enc := by
  cases enc with
  | nil => exact absurd rfl some
  | cons c enc => rfl

theorem IsLeb.ne_nil (h : IsLeb enc) : enc ≠ [] := List.length_pos_iff.mp h.length_pos

theorem IsLeb.lastByte_lt (h : IsLeb enc) : (lastByte enc).toNat < 2 ^ 7 := by
  induction h with
  | last stop => exact more_eq_false.mp stop
  | next go rest ih =>
    rw [lastByte_cons rest.ne_nil]
    exact ih

/-- The number that the groups make, with the sign of the last byte. -/
def lebSigned (enc : List UInt8) : Int :=
  lebValue enc - if 2 ^ 6 ≤ (lastByte enc).toNat then 2 ^ (7 * enc.length) else 0

theorem lebSigned_cons (some : enc ≠ []) : lebSigned (b :: enc) = 2 ^ 7 * lebSigned enc + (b.toNat % 2 ^ 7 : Nat) := by
  have power : (2 : Int) ^ (7 * (enc.length + 1)) = 2 ^ 7 * 2 ^ (7 * enc.length) := by
    rw [← pow_add]
    congr 1
    omega
  rw [lebSigned, lebSigned, lastByte_cons some, lebValue, List.length_cons, power]
  split
  · push_cast
    ring
  · push_cast
    ring

theorem byte_mod (go : 2 ^ 7 ≤ b.toNat) : b.toNat % 2 ^ 7 = b.toNat - 2 ^ 7 := by
  have lt := b.toNat_lt
  omega

/-! ## The grammar -/

/-- The last byte of an unsigned number of `N` bits. -/
abbrev FitsUnsigned (N : Nat) (enc : List UInt8) : Prop := (lastByte enc).toNat < 2 ^ (N - 7 * (enc.length - 1))

/-- The last byte of a signed number of `N` bits. -/
abbrev FitsSigned (N : Nat) (enc : List UInt8) : Prop :=
  (lastByte enc).toNat < 2 ^ 6 ∧ (lastByte enc).toNat < 2 ^ (N - 7 * (enc.length - 1) - 1) ∨
    2 ^ 6 ≤ (lastByte enc).toNat ∧ 2 ^ 7 ≤ (lastByte enc).toNat + 2 ^ (N - 7 * (enc.length - 1) - 1)

theorem IsLeb.fits_cons {N : Nat} (isLeb : IsLeb enc) : (FitsUnsigned N (b :: enc) ↔ FitsUnsigned (N - 7) enc) ∧
    (FitsSigned N (b :: enc) ↔ FitsSigned (N - 7) enc) := by
  have some := isLeb.length_pos
  have same : N - 7 * (enc.length + 1 - 1) = N - 7 - 7 * (enc.length - 1) := by omega
  rw [FitsUnsigned, FitsSigned, lastByte_cons isLeb.ne_nil, List.length_cons, same]
  exact ⟨Iff.rfl, Iff.rfl⟩

theorem Spec.unsigned_iff : ∀ {N v : Nat}, 0 < N → (Spec.Unsigned N v enc ↔
    IsLeb enc ∧ 7 * (enc.length - 1) < N ∧ v = lebValue enc ∧ FitsUnsigned N enc) := by
  induction enc with
  | nil => exact fun _ => ⟨nofun, fun h => nomatch h.1⟩
  | cons b enc ih =>
    intro N v pos
    constructor
    · intro h
      cases h with
      | last stop fits => exact ⟨.last (more_eq_false.mpr stop), pos, (Nat.mod_eq_of_lt stop).symm, fits⟩
      | @next _ m _ _ go wide rest =>
        obtain ⟨isLeb, short, rfl, fits⟩ := (ih (by omega)).mp rest
        have some := isLeb.length_pos
        refine ⟨.next (more_eq_true.mpr go) isLeb, by rw [List.length_cons]; omega, ?_, isLeb.fits_cons.1.mpr fits⟩
        rw [lebValue, byte_mod go, Nat.add_comm]
    · rintro ⟨isLeb, short, rfl, fits⟩
      cases isLeb with
      | last stop =>
        have low := more_eq_false.mp stop
        rw [lebValue, Nat.mod_eq_of_lt low]
        exact .last low fits
      | next go rest =>
        have some := rest.length_pos
        have low := more_eq_true.mp go
        rw [List.length_cons] at short
        rw [lebValue, byte_mod low, Nat.add_comm]
        exact .next low (by omega) ((ih (by omega)).mpr ⟨rest, by omega, rfl, rest.fits_cons.1.mp fits⟩)

theorem Spec.signed_iff : ∀ {N : Nat} {v : Int}, 0 < N → (Spec.Signed N v enc ↔
    IsLeb enc ∧ 7 * (enc.length - 1) < N ∧ v = lebSigned enc ∧ FitsSigned N enc) := by
  induction enc with
  | nil => exact fun _ => ⟨nofun, fun h => nomatch h.1⟩
  | cons b enc ih =>
    have single (stop : b.toNat < 2 ^ 7) :
        lebSigned [b] = b.toNat - if 2 ^ 6 ≤ b.toNat then 2 ^ 7 else 0 := by
      rw [lebSigned, lebValue, Nat.mod_eq_of_lt stop]
      rfl
    intro N v pos
    constructor
    · intro h
      cases h with
      | positive stop fits =>
        refine ⟨.last (more_eq_false.mpr (by omega)), pos, ?_, .inl ⟨stop, fits⟩⟩
        rw [single (by omega), if_neg (Nat.not_le.mpr stop)]
        omega
      | negative sign stop fits =>
        refine ⟨.last (more_eq_false.mpr stop), pos, ?_, .inr ⟨sign, fits⟩⟩
        rw [single stop, if_pos sign]
      | next go wide rest =>
        obtain ⟨isLeb, short, rfl, fits⟩ := (ih (by omega)).mp rest
        have some := isLeb.length_pos
        refine ⟨.next (more_eq_true.mpr go) isLeb, by rw [List.length_cons]; omega, ?_, isLeb.fits_cons.2.mpr fits⟩
        rw [lebSigned_cons isLeb.ne_nil, byte_mod go]
        omega
    · rintro ⟨isLeb, short, rfl, fits⟩
      cases isLeb with
      | last stop =>
        have low := more_eq_false.mp stop
        rw [single low]
        obtain ⟨positive, fits⟩ | ⟨negative, fits⟩ := fits
        · rw [if_neg (show ¬ 2 ^ 6 ≤ b.toNat from Nat.not_le.mpr positive), sub_zero]
          exact .positive positive fits
        · rw [if_pos (show 2 ^ 6 ≤ b.toNat from negative)]
          exact .negative negative low fits
      | next go rest =>
        have some := rest.length_pos
        have low := more_eq_true.mp go
        rw [List.length_cons] at short
        rw [lebSigned_cons rest.ne_nil, byte_mod low, Int.ofNat_sub low]
        exact .next low (by omega) ((ih (by omega)).mpr ⟨rest, by omega, rfl, rest.fits_cons.2.mp fits⟩)

/-! ## The readers -/

theorem lebValue_last : ∀ {enc : List UInt8}, enc ≠ [] → ∃ low, low < 2 ^ (7 * (enc.length - 1)) ∧
    lebValue enc = low + 2 ^ (7 * (enc.length - 1)) * ((lastByte enc).toNat % 2 ^ 7)
  | [b], _ => ⟨0, Nat.one_pos, by
    show b.toNat % 2 ^ 7 + 2 ^ 7 * 0 = 0 + 1 * (b.toNat % 2 ^ 7)
    omega⟩
  | b :: c :: enc, _ => by
    obtain ⟨low, lt, value⟩ := lebValue_last (List.cons_ne_nil c enc)
    have group := Nat.mod_lt b.toNat (show 0 < 2 ^ 7 by decide)
    have power : 2 ^ (7 * ((b :: c :: enc).length - 1)) = 2 ^ 7 * 2 ^ (7 * ((c :: enc).length - 1)) := by
      rw [← Nat.pow_add]
      congr 1
      show 7 * (enc.length + 1) = 7 + 7 * enc.length
      omega
    refine ⟨b.toNat % 2 ^ 7 + 2 ^ 7 * low, by rw [power]; omega, ?_⟩
    rw [lastByte_cons (List.cons_ne_nil _ _), power, lebValue, value]
    ring

theorem lebValue_lt_of_fits {N : Nat} (some : enc ≠ []) (short : 7 * (enc.length - 1) ≤ N)
    (fits : FitsUnsigned N enc) : lebValue enc < 2 ^ N := by
  obtain ⟨low, lt, value⟩ := lebValue_last some
  have group : (lastByte enc).toNat % 2 ^ 7 + 1 ≤ 2 ^ (N - 7 * (enc.length - 1)) :=
    Nat.lt_of_le_of_lt (Nat.mod_le _ _) fits
  calc lebValue enc < 2 ^ (7 * (enc.length - 1)) * ((lastByte enc).toNat % 2 ^ 7 + 1) := by
        rw [value, Nat.mul_succ]
        omega
    _ ≤ 2 ^ (7 * (enc.length - 1)) * 2 ^ (N - 7 * (enc.length - 1)) := Nat.mul_le_mul_left _ group
    _ = 2 ^ N := by rw [← Nat.pow_add, Nat.add_sub_cancel' short]

theorem signBit_iff (stop : b.toNat < 2 ^ 7) : b &&& 0x40 ≠ 0 ↔ 2 ^ 6 ≤ b.toNat := by
  refine forall_byte (P := fun b => b.toNat < 2 ^ 7 → (b &&& 0x40 ≠ 0 ↔ 2 ^ 6 ≤ b.toNat)) ?_ b stop
  decide +kernel

theorem signExtend_groups (isLeb : IsLeb enc) :
    signExtend (groups enc (LebLoop.start : LebLoop w)) = BitVec.ofInt w (lebSigned enc) := by
  have signBit := signBit_iff isLeb.lastByte_lt
  rw [signExtend, groups_byte _ isLeb.ne_nil, shift_start, lebSigned]
  by_cases sign : 2 ^ 6 ≤ (lastByte enc).toNat
  · rw [if_pos sign]
    by_cases narrow : 7 * enc.length < w
    · rw [if_pos ⟨narrow, signBit.mpr sign⟩]
      have fits : lebValue enc < 2 ^ w :=
        Nat.lt_trans (lebValue_lt enc) (Nat.pow_lt_pow_right (by decide) narrow)
      apply BitVec.eq_of_toNat_eq
      rw [BitVec.toNat_or, groups_start, Nat.mod_eq_of_lt fits, BitVec.toNat_shiftLeft, BitVec.toNat_allOnes,
        Nat.shiftLeft_eq, or_shift (lebValue_lt enc) fits, BitVec.toNat_ofInt]
      apply Int.ofNat_inj.mp
      have pos : (0 : Int) < 2 ^ w := Int.pow_pos (by decide)
      rw [Int.toNat_of_nonneg (Int.emod_nonneg _ (by exact_mod_cast pos.ne'))]
      push_cast [Nat.two_pow_pos]
      have split : (lebValue enc : Int) + 2 ^ (7 * enc.length) * (2 ^ w - 1) =
          lebValue enc - 2 ^ (7 * enc.length) + 2 ^ w * 2 ^ (7 * enc.length) := by ring
      rw [split, Int.add_mul_emod_self_left]
    · rw [if_neg fun both => narrow both.1, result_start]
      apply BitVec.eq_of_toNat_eq
      rw [BitVec.toNat_ofInt, BitVec.toNat_ofInt]
      have split : (2 : Int) ^ (7 * enc.length) = ((2 ^ w : Nat) : Int) * 2 ^ (7 * enc.length - w) := by
        push_cast
        rw [← pow_add, Nat.add_sub_cancel' (Nat.le_of_not_lt narrow)]
      rw [split, Int.sub_mul_emod_self_left]
  · rw [if_neg sign, if_neg fun both => sign (signBit.mp both.2), sub_zero]
    exact result_start enc

theorem fits_of_shorter {N : Nat} (isLeb : IsLeb enc) (short : 7 * enc.length < N) :
    FitsUnsigned N enc ∧ FitsSigned N enc := by
  have last := isLeb.lastByte_lt
  have pos := isLeb.length_pos
  have room : 2 ^ 7 ≤ 2 ^ (N - 7 * (enc.length - 1) - 1) := Nat.pow_le_pow_right (by decide) (by omega)
  have more : 2 ^ (N - 7 * (enc.length - 1) - 1) ≤ 2 ^ (N - 7 * (enc.length - 1)) :=
    Nat.pow_le_pow_right (by decide) (by omega)
  refine ⟨by rw [FitsUnsigned]; omega, ?_⟩
  by_cases sign : 2 ^ 6 ≤ (lastByte enc).toNat
  · exact .inr ⟨sign, by omega⟩
  · exact .inl ⟨Nat.lt_of_not_le sign, by omega⟩

section Readers

variable {t : IntType} {enc bytes : List UInt8} {v : BitVec t.width} {n : Nat}

/-- The last byte of a number of type `t`. -/
def Fits (t : IntType) (enc : List UInt8) : Prop :=
  if t.signed then FitsSigned t.width enc else FitsUnsigned t.width enc

def number (t : IntType) (enc : List UInt8) : BitVec t.width :=
  BitVec.ofInt t.width (if t.signed then lebSigned enc else lebValue enc)

/-- `uN` or `sN` by the type. -/
def Spec.Number (t : IntType) (v : BitVec t.width) (enc : List UInt8) : Prop :=
  if t.signed then ∃ i, Spec.Signed t.width i enc ∧ v = BitVec.ofInt t.width i
  else Spec.Unsigned t.width v.toNat enc

theorem Spec.number_iff (pos : 0 < t.width) : Spec.Number t v enc ↔
    IsLeb enc ∧ 7 * (enc.length - 1) < t.width ∧ Fits t enc ∧ v = number t enc := by
  rw [Spec.Number, Fits, number]
  cases t.signed with
  | true =>
    constructor
    · rintro ⟨i, signed, value⟩
      obtain ⟨isLeb, short, rfl, fits⟩ := (Spec.signed_iff pos).mp signed
      exact ⟨isLeb, short, fits, value⟩
    · rintro ⟨isLeb, short, fits, value⟩
      exact ⟨_, (Spec.signed_iff pos).mpr ⟨isLeb, short, rfl, fits⟩, value⟩
  | false =>
    show Spec.Unsigned t.width v.toNat enc ↔
      _ ∧ _ ∧ FitsUnsigned t.width enc ∧ v = BitVec.ofInt t.width (lebValue enc)
    rw [Spec.unsigned_iff pos, BitVec.ofInt_natCast]
    refine and_congr_right fun isLeb => and_congr_right fun short => ?_
    rw [and_comm]
    refine and_congr_right fun fits => ?_
    have room := lebValue_lt_of_fits isLeb.ne_nil (Nat.le_of_lt short) fits
    rw [← BitVec.toNat_inj, BitVec.toNat_ofNat, Nat.mod_eq_of_lt room]

/-- What `readLEBNumber` checks of the last byte. -/
def LastOk (t : IntType) (enc : List UInt8) : Prop :=
  if t.signed then 7 * enc.length < t.width ∨
    (if t.size = 4 then repeatsSign 0x8 0xf0 0x70 (lastByte enc) else repeatsSign 0x1 0xfe 0x7e (lastByte enc))
  else ¬ (t.size = 4 ∧ 7 * enc.length ≥ t.width ∧ lastByte enc &&& 0xf0 ≠ 0)

theorem checkLast_iff (isLeb : IsLeb enc) :
    checkLast t (groups enc LebLoop.start) = .ok v ↔ LastOk t enc ∧ v = number t enc := by
  rw [checkLast, LastOk, number, shift_start, groups_byte _ isLeb.ne_nil]
  cases t.signed with
  | false =>
    rw [if_pos rfl, ite_error_eq_ok, result_start, Except.ok.injEq]
    exact and_congr Iff.rfl eq_comm
  | true =>
    have value := signExtend_groups (w := t.width) isLeb
    rw [if_neg (Bool.true_eq_false.mp ·)]
    by_cases shorter : 7 * enc.length < t.width
    · rw [if_pos shorter, value]
      exact ⟨fun h => ⟨.inl shorter, (Except.ok.inj h).symm⟩, fun h => congrArg _ h.2.symm⟩
    · have plain : signExtend (groups enc (LebLoop.start : LebLoop t.width)) = (groups enc LebLoop.start).result :=
        if_neg fun both => shorter (shift_start enc ▸ both.1)
      rw [if_neg shorter, ← plain, value]
      generalize (if t.size = 4 then _ else _ : Bool) = fits
      cases fits with
      | true => exact ⟨fun h => ⟨.inr rfl, (Except.ok.inj h).symm⟩, fun h => congrArg _ h.2.symm⟩
      | false => exact ⟨by rintro ⟨⟩, fun h => h.1.elim (absurd · shorter) (Bool.noConfusion ·)⟩

def Oversized (enc : List UInt8) : Prop := enc.length = 10 ∧ 2 ≤ (lastByte enc).toNat

inductive IntType.Leb : IntType → Prop
  | uint32 : Leb .uint32
  | int32 : Leb .int32
  | uint64 : Leb .uint64
  | int64 : Leb .int64

theorem IntType.Leb.short (leb : t.Leb) (k : Nat) : k ≤ t.maxBytes ↔ 7 * (k - 1) < t.width := by
  cases leb
  · show k ≤ 5 ↔ 7 * (k - 1) < 32
    omega
  · show k ≤ 5 ↔ 7 * (k - 1) < 32
    omega
  · show k ≤ 10 ↔ 7 * (k - 1) < 64
    omega
  · show k ≤ 10 ↔ 7 * (k - 1) < 64
    omega

theorem lastOk_uint32 (isLeb : IsLeb enc) (short : enc.length ≤ 5) : LastOk .uint32 enc ↔ FitsUnsigned 32 enc := by
  have top : (lastByte enc &&& 0xf0 = 0) ↔ (lastByte enc).toNat < 2 ^ 4 :=
    forall_byte (P := fun b => (b &&& 0xf0 = 0) ↔ b.toNat < 2 ^ 4) (by decide +kernel) _
  show ¬ (4 = 4 ∧ 7 * enc.length ≥ 32 ∧ lastByte enc &&& 0xf0 ≠ 0) ↔ _
  rw [not_and, not_and, not_not, top]
  by_cases shorter : 7 * enc.length < 32
  · exact ⟨fun _ => (fits_of_shorter isLeb shorter).1, fun _ _ long => absurd long (by omega)⟩
  · have five : enc.length = 5 := by omega
    rw [FitsUnsigned, five]
    exact ⟨fun h => h rfl (by decide), fun h _ _ => h⟩

/-- A signed number's last byte is checked when it is one that the type has only a part of. -/
theorem lastOk_signed (signed : t.signed = true) (isLeb : IsLeb enc) (last : ¬ 7 * enc.length < t.width →
      ((if t.size = 4 then repeatsSign 0x8 0xf0 0x70 (lastByte enc) else repeatsSign 0x1 0xfe 0x7e (lastByte enc)) =
        true ↔ FitsSigned t.width enc)) : LastOk t enc ↔ FitsSigned t.width enc := by
  rw [LastOk, if_pos signed]
  by_cases shorter : 7 * enc.length < t.width
  · exact ⟨fun _ => (fits_of_shorter isLeb shorter).2, fun _ => .inl shorter⟩
  · rw [last shorter]
    exact ⟨fun h => h.resolve_left shorter, .inr⟩

theorem lastOk_int32 (isLeb : IsLeb enc) (short : enc.length ≤ 5) : LastOk .int32 enc ↔ FitsSigned 32 enc := by
  refine lastOk_signed (t := .int32) rfl isLeb fun long => ?_
  have five : enc.length = 5 := by
    change ¬ 7 * enc.length < 32 at long
    omega
  rw [FitsSigned, five]
  refine forall_byte (P := fun b => b.toNat < 2 ^ 7 → (repeatsSign 0x8 0xf0 0x70 b = true ↔
    b.toNat < 2 ^ 6 ∧ b.toNat < 2 ^ 3 ∨ 2 ^ 6 ≤ b.toNat ∧ 2 ^ 7 ≤ b.toNat + 2 ^ 3)) ?_ _ isLeb.lastByte_lt
  decide +kernel

theorem lastOk_int64 (isLeb : IsLeb enc) (short : enc.length ≤ 10) : LastOk .int64 enc ↔ FitsSigned 64 enc := by
  refine lastOk_signed (t := .int64) rfl isLeb fun long => ?_
  have ten : enc.length = 10 := by
    change ¬ 7 * enc.length < 64 at long
    omega
  rw [FitsSigned, ten]
  refine forall_byte (P := fun b => b.toNat < 2 ^ 7 → (repeatsSign 0x1 0xfe 0x7e b = true ↔
    b.toNat < 2 ^ 6 ∧ b.toNat < 2 ^ 0 ∨ 2 ^ 6 ≤ b.toNat ∧ 2 ^ 7 ≤ b.toNat + 2 ^ 0)) ?_ _ isLeb.lastByte_lt
  decide +kernel

theorem lastOk_uint64 (enc : List UInt8) : LastOk .uint64 enc := by
  exact fun h => absurd h.1 (by decide)

theorem fits_uint64 (isLeb : IsLeb enc) (short : enc.length ≤ 10) : Fits .uint64 enc ↔ ¬ Oversized enc := by
  show FitsUnsigned 64 enc ↔ _
  by_cases shorter : 7 * enc.length < 64
  · exact ⟨fun _ long => absurd long.1 (by omega), fun _ => (fits_of_shorter isLeb shorter).1⟩
  · have ten : enc.length = 10 := by omega
    rw [FitsUnsigned, Oversized, ten]
    exact ⟨fun lt both => Nat.not_le.mpr lt both.2, fun h => Nat.lt_of_not_le fun le => h ⟨rfl, le⟩⟩

theorem lastOk_iff (leb : t.Leb) (isLeb : IsLeb enc) (short : enc.length ≤ t.maxBytes)
    (sized : t = .uint64 → ¬ Oversized enc) : LastOk t enc ↔ Fits t enc := by
  cases leb with
  | uint32 => exact lastOk_uint32 isLeb short
  | int32 => exact lastOk_int32 isLeb short
  | int64 => exact lastOk_int64 isLeb short
  | uint64 => exact iff_of_true (lastOk_uint64 enc) ((fits_uint64 isLeb short).mpr (sized rfl))

theorem readLEBNumber_iff (leb : t.Leb) (sized : ∀ enc rest, bytes = enc ++ rest → IsLeb enc → t = .uint64 →
    ¬ Oversized enc) : bytes ≠ [] ∧ readLEBNumber t bytes = .ok (v, n) ↔
      ∃ enc rest, bytes = enc ++ rest ∧ enc.length = n ∧ Spec.Number t v enc := by
  have pos : 0 < t.width := (leb.short 0).mp (Nat.zero_le _)
  constructor
  · rintro ⟨some, read⟩
    obtain ⟨enc, rest, whole, isLeb, length, short, last⟩ := readLEBNumber_isLeb some read
    have short := length ▸ short
    obtain ⟨last, value⟩ := (checkLast_iff isLeb).mp last
    exact ⟨enc, rest, whole, length, (Spec.number_iff pos).mpr ⟨isLeb, (leb.short _).mp short,
      (lastOk_iff leb isLeb short (sized enc rest whole isLeb)).mp last, value⟩⟩
  · rintro ⟨enc, rest, whole, rfl, number⟩
    obtain ⟨isLeb, short, fits, value⟩ := (Spec.number_iff pos).mp number
    have short := (leb.short _).mpr short
    have last := (lastOk_iff leb isLeb short (sized enc rest whole isLeb)).mpr fits
    subst whole
    exact ⟨List.append_ne_nil_of_left_ne_nil isLeb.ne_nil rest,
      readLEBNumber_of_isLeb isLeb short ((checkLast_iff isLeb).mpr ⟨last, value⟩) rest⟩

/-- The readers are exact on a byte string: `readLEBNumber` reads the number that the string begins with, if it
does, and the other two agree with it. -/
def LebExact (t : IntType) (bytes : List UInt8) : Prop :=
  (∀ v n, bytes ≠ [] ∧ readLEBNumber t bytes = .ok (v, n) ↔
    ∃ enc rest, bytes = enc ++ rest ∧ enc.length = n ∧ Spec.Number t v enc) ∧
  ∀ v n, bytes ≠ [] ∧ readLEBNumber t bytes = .ok (v, n) →
    readSafeLEBNumber t bytes = some (v, n) ∧ skipLEBNumber t bytes = some n

theorem not_oversized_of_exact {rest : List UInt8} (exact : LebExact .uint64 (enc ++ rest)) (isLeb : IsLeb enc) :
    ¬ Oversized enc := by
  intro big
  have short : enc.length ≤ 10 := Nat.le_of_eq big.1
  have read := readLEBNumber_of_isLeb (t := .uint64) isLeb short
    ((checkLast_iff isLeb).mpr ⟨lastOk_uint64 enc, rfl⟩) rest
  obtain ⟨enc', rest', same, length, number⟩ :=
    (exact.1 _ _).mp ⟨List.append_ne_nil_of_left_ne_nil isLeb.ne_nil rest, read⟩
  obtain ⟨rfl, -⟩ := List.append_inj same length.symm
  exact (fits_uint64 isLeb short).mp ((Spec.number_iff (by decide)).mp number).2.2.1 big

theorem skipLEBNumber_whole (t : IntType) (isLeb : IsLeb enc) : skipLEBNumber t enc = none := by
  rw [skipLEBNumber, List.take_eq_take_min, isLeb.skipLoop_take (Nat.min_le_right _ _), List.length_take]
  exact if_neg (by omega)

/-- **The readers are exact** unless the string begins with a `u64` whose tenth byte is too large, or ends with
the number. -/
theorem lebExact_iff (leb : t.Leb) : LebExact t bytes ↔
    (∀ enc rest, bytes = enc ++ rest → IsLeb enc → t = .uint64 → ¬ Oversized enc) ∧ ¬ ∃ v, Spec.Number t v bytes := by
  have pos : 0 < t.width := (leb.short 0).mp (Nat.zero_le _)
  constructor
  · intro exact
    refine ⟨?_, ?_⟩
    · rintro enc rest rfl isLeb rfl
      exact not_oversized_of_exact exact isLeb
    · rintro ⟨v, number⟩
      have isLeb := ((Spec.number_iff pos).mp number).1
      have read := (exact.1 v bytes.length).mpr ⟨bytes, [], (List.append_nil _).symm, rfl, number⟩
      have skip := (exact.2 v _ read).2
      rw [skipLEBNumber_whole t isLeb] at skip
      cases skip
  · rintro ⟨sized, left⟩
    refine ⟨fun v n => readLEBNumber_iff leb sized, fun v n read => ⟨readSafeLEBNumber_of_read read.1 read.2, ?_⟩⟩
    obtain ⟨enc, rest, rfl, rfl, number⟩ := (readLEBNumber_iff leb sized).mp read
    obtain ⟨isLeb, short, -⟩ := (Spec.number_iff pos).mp number
    have some : rest ≠ [] := by
      rintro rfl
      rw [List.append_nil] at left
      exact left ⟨v, number⟩
    rw [skipLEBNumber_isLeb t isLeb some, if_pos ((leb.short _).mpr short)]

/-- A number of three bytes, and one more. -/
theorem lebExact_followed : LebExact .int32 [0xe5, 0x8e, 0x66, 0x00] := by
  refine (lebExact_iff .int32).mpr ⟨fun _ _ _ _ => nofun, ?_⟩
  rintro ⟨v, number⟩
  obtain ⟨_, _⟩ | ⟨_, _ | ⟨_, _ | ⟨go, _⟩⟩⟩ := ((Spec.number_iff (by decide)).mp number).1
  exact absurd go (by decide)

/-- A tenth byte with all bits set is accepted, and a number at the end of the bytes aborts `skipLEBNumber`. -/
theorem not_lebExact : ¬ LebExact .uint64 (List.replicate 9 0xff ++ [0x7f] ++ [0x00]) ∧ ¬ LebExact .uint32 [0x00] := by
  refine ⟨fun exact => ?_, fun exact => ?_⟩
  · have isLeb : IsLeb (List.replicate 9 0xff ++ [0x7f]) := by
      iterate 9 refine .next rfl ?_
      exact .last rfl
    exact not_oversized_of_exact exact isLeb ⟨rfl, by decide⟩
  · have skip := (exact.2 0 1 ⟨by decide, rfl⟩).2
    exact absurd skip (by decide)

end Readers

end Dtvm.Wasm
