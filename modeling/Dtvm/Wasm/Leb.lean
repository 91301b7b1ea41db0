import Dtvm.Effect.Fallible
import Mathlib.Data.List.Basic

/-!
# LEB128 numbers

The three readers of `utils/wasm.h`. `readLEBNumber` checks a number against its type and is what the
loaders use, `readSafeLEBNumber` reads on to a byte without the high bit, and `skipLEBNumber` looks at no
more bytes than a number of its type can have. They are functions of the bytes from the instruction pointer
on, and return how many bytes they read.

The bytes of a number are told by `IsLeb` alone. On these all three agree on the length, `skipLEBNumber` as
long as its type is wide enough (`skipLEBNumber_isLeb`).
-/

namespace Dtvm.Wasm

open Effect

inductive LebError where
  | lebIntTooLong
  | lebIntTooLarge
deriving DecidableEq, Repr

structure IntType where
  size : Nat
  signed : Bool
deriving DecidableEq, Repr

namespace IntType

def uint8 : IntType := ⟨1, false⟩
def uint32 : IntType := ⟨4, false⟩
def int32 : IntType := ⟨4, true⟩
def int64 : IntType := ⟨8, true⟩
def uint64 : IntType := ⟨8, false⟩

abbrev width (t : IntType) : Nat := t.size * 8

def maxBytes (t : IntType) : Nat := (t.size * 8 + 6) / 7

end IntType

structure LebLoop (w : Nat) where
  result : BitVec w
  shift : Nat
  count : Nat
  byte : UInt8

namespace LebLoop

variable {w : Nat}

def start : LebLoop w := ⟨0, 0, 0, 0⟩

def take (s : LebLoop w) (b : UInt8) : LebLoop w :=
  { s with
    result := s.result ||| ((b &&& 0x7f).toBitVec.setWidth w <<< s.shift)
    shift := s.shift + 7
    byte := b }

def used (s : LebLoop w) : Nat := s.shift / 7

end LebLoop

def more (b : UInt8) : Bool := b &&& 0x80 != 0

/-- The loop of `readLEBNumber`, over the bytes before `End`. -/
def readLoop {w : Nat} : List UInt8 → LebLoop w → LebLoop w
  | [], s => s
  | b :: bytes, s =>
    let s := s.take b
    if more b then readLoop bytes { s with count := s.count + 1 } else s

def signExtend {w : Nat} (s : LebLoop w) : BitVec w :=
  if s.shift < w ∧ s.byte &&& 0x40 ≠ 0 then s.result ||| (BitVec.allOnes w <<< s.shift) else s.result

/-- The bits of a last byte beyond its type repeat the sign bit. -/
def repeatsSign (signBit top ones b : UInt8) : Bool := b &&& top == if b &&& signBit != 0 then ones else 0

/-- The number, unless the last byte has bits beyond its type. -/
def checkLast (t : IntType) (s : LebLoop t.width) : Except LebError (BitVec t.width) :=
  if t.signed = false then
    if t.size = 4 ∧ s.shift ≥ t.width ∧ s.byte &&& 0xf0 ≠ 0 then .error .lebIntTooLarge else .ok s.result
  else if s.shift < t.width then .ok (signExtend s)
  else if (if t.size = 4 then repeatsSign 0x8 0xf0 0x70 s.byte else repeatsSign 0x1 0xfe 0x7e s.byte) then
    .ok s.result
  else .error .lebIntTooLarge

/-- `readLEBNumber`: the number and the bytes it takes. -/
def readLEBNumber (t : IntType) (bytes : List UInt8) : Except LebError (BitVec t.width × Nat) :=
  let s := readLoop (bytes.take (t.maxBytes + 1)) LebLoop.start
  if s.count ≥ t.maxBytes ∨ more s.byte then .error .lebIntTooLong
  else do
    let v ← checkLast t s
    .ok (v, s.used)

/-- The loop of `readSafeLEBNumber`, which does not look for the end of the code. -/
def readSafeLoop {w : Nat} : List UInt8 → LebLoop w → Option (LebLoop w)
  | [], _ => none
  | b :: bytes, s => if more b then readSafeLoop bytes (s.take b) else some (s.take b)

/-- `readSafeLEBNumber`; `none` when it runs out of the code. -/
def readSafeLEBNumber (t : IntType) (bytes : List UInt8) : Option (BitVec t.width × Nat) := do
  let s ← readSafeLoop bytes LebLoop.start
  some (if t.signed then signExtend s else s.result, s.used)

/-- The loop of `skipLEBNumber`. -/
def skipLoop : List UInt8 → Nat
  | [] => 0
  | b :: bytes => if more b then skipLoop bytes + 1 else 1

/-- `skipLEBNumber`; `none` when its assertion that there are bytes left fails, which aborts. -/
def skipLEBNumber (t : IntType) (bytes : List UInt8) : Option Nat :=
  let bytes := bytes.take (t.maxBytes + 1)
  if skipLoop bytes < bytes.length then some (skipLoop bytes) else none

/-! ## The bytes of a number -/

inductive IsLeb : List UInt8 → Prop
  | last {b : UInt8} (stop : more b = false) : IsLeb [b]
  | next {b : UInt8} {enc : List UInt8} (go : more b = true) (rest : IsLeb enc) : IsLeb (b :: enc)

def groups {w : Nat} (enc : List UInt8) (s : LebLoop w) : LebLoop w := enc.foldl LebLoop.take s

section Groups

variable {w : Nat}

theorem groups_count : ∀ (enc : List UInt8) (s : LebLoop w) (n : Nat),
    groups enc { s with count := n } = { groups enc s with count := n }
  | [], _, _ => rfl
  | b :: enc, s, n => groups_count enc (s.take b) n

theorem shift_groups : ∀ (enc : List UInt8) (s : LebLoop w), (groups enc s).shift = s.shift + 7 * enc.length
  | [], _ => rfl
  | b :: enc, s => by
    have rest := shift_groups enc (s.take b)
    have step : (s.take b).shift = s.shift + 7 := rfl
    show (groups enc (s.take b)).shift = _
    rw [rest, step, List.length_cons]
    omega

theorem used_groups (enc : List UInt8) : (groups enc (LebLoop.start (w := w))).used = enc.length := by
  have shift := shift_groups enc (LebLoop.start (w := w))
  rw [LebLoop.used, shift]
  show (0 + 7 * enc.length) / 7 = enc.length
  omega

end Groups

namespace IsLeb

variable {w : Nat} {enc : List UInt8}

variable (h : IsLeb enc)

include h

theorem length_pos : 0 < enc.length := by
  cases h <;> exact Nat.succ_pos _

theorem stops : ∀ s : LebLoop w, more (groups enc s).byte = false := by
  induction h with
  | last stop => exact fun s => stop
  | next go rest ih => exact fun s => ih (s.take _)

theorem readLoop_append (rest : List UInt8) : ∀ s : LebLoop w,
    readLoop (enc ++ rest) s = { groups enc s with count := s.count + (enc.length - 1) } := by
  induction h with
  | last stop =>
    intro s
    show (if more _ then _ else _) = _
    rw [if_neg (by rw [stop]; exact Bool.false_ne_true)]
    rfl
  | @next b enc go tail ih =>
    intro s
    have pos := tail.length_pos
    rw [List.cons_append, readLoop]
    rw [if_pos go, ih, groups_count]
    show LebLoop.mk _ _ (s.count + 1 + (enc.length - 1)) _ = LebLoop.mk _ _ (s.count + (enc.length + 1 - 1)) _
    congr 1
    omega

theorem readSafeLoop_append (rest : List UInt8) : ∀ s : LebLoop w,
    readSafeLoop (enc ++ rest) s = some (groups enc s) := by
  induction h with
  | last stop =>
    intro s
    show (if more _ then _ else _) = _
    rw [if_neg (by rw [stop]; exact Bool.false_ne_true)]
    rfl
  | next go tail ih =>
    intro s
    show (if more _ then _ else _) = _
    rw [if_pos go]
    exact ih _

theorem skipLoop_append (rest : List UInt8) : skipLoop (enc ++ rest) = enc.length := by
  induction h with
  | last stop =>
    show (if more _ then _ else _) = _
    rw [if_neg (by rw [stop]; exact Bool.false_ne_true)]
    rfl
  | next go tail ih =>
    rw [List.cons_append, skipLoop, if_pos go, ih]
    rfl

theorem skipLoop_take : ∀ {k : Nat}, k ≤ enc.length → skipLoop (enc.take k) = k := by
  induction h with
  | last stop =>
    intro k le
    obtain rfl | rfl : k = 0 ∨ k = 1 := by
      have : k ≤ 1 := le
      omega
    · rfl
    · show (if more _ then _ else _) = _
      rw [if_neg (by rw [stop]; exact Bool.false_ne_true)]
  | next go tail ih =>
    intro k le
    cases k with
    | zero => rfl
    | succ k =>
      show (if more _ then _ else _) = _
      rw [if_pos go, ih (Nat.le_of_succ_le_succ le)]

end IsLeb

theorem isLeb_or_all : ∀ bytes : List UInt8, (∃ enc rest, bytes = enc ++ rest ∧ IsLeb enc) ∨ ∀ b ∈ bytes, more b = true
  | [] => .inr (fun _ mem => absurd mem List.not_mem_nil)
  | b :: bytes => by
    cases go : more b with
    | false => exact .inl ⟨[b], bytes, rfl, .last go⟩
    | true =>
      obtain ⟨enc, rest, rfl, isLeb⟩ | all := isLeb_or_all bytes
      · exact .inl ⟨b :: enc, rest, rfl, .next go isLeb⟩
      · refine .inr fun c mem => ?_
        obtain rfl | mem := List.mem_cons.mp mem
        · exact go
        · exact all c mem

theorem more_readLoop {w : Nat} : ∀ {bytes : List UInt8} (s : LebLoop w), bytes ≠ [] →
    (∀ b ∈ bytes, more b = true) → more (readLoop bytes s).byte = true
  | b :: bytes, s, _, all => by
    have go := all b List.mem_cons_self
    show more (if more b then readLoop bytes _ else _).byte = true
    rw [if_pos go]
    cases bytes with
    | nil => exact go
    | cons c bytes => exact more_readLoop _ (List.cons_ne_nil _ _) fun b mem => all b (List.mem_cons_of_mem _ mem)

/-! ## Agreement -/

section Agreement

variable {t : IntType} {bytes : List UInt8}

theorem checkLast_value {s : LebLoop t.width} {v : BitVec t.width} (ok : checkLast t s = .ok v) :
    v = if t.signed then signExtend s else s.result := by
  rw [checkLast] at ok
  cases signed : t.signed with
  | false =>
    rw [if_pos signed] at ok
    split at ok
    · cases ok
    · cases ok
      exact (if_neg Bool.false_ne_true).symm
  | true =>
    rw [if_neg (by rw [signed]; exact Bool.true_eq_false.mp)] at ok
    rw [if_pos rfl]
    split at ok
    · cases ok
      rfl
    · next wide =>
      have plain : signExtend s = s.result := if_neg fun both => wide both.1
      rw [plain]
      generalize (if t.size = 4 then _ else _ : Bool) = fits at ok
      cases fits with
      | true => exact (Except.ok.inj ok).symm
      | false => cases ok

/-- **A number that is read is one**, and not longer than its type allows. -/
theorem readLEBNumber_isLeb {v : BitVec t.width} {n : Nat} (some : bytes ≠ [])
    (read : readLEBNumber t bytes = .ok (v, n)) :
    ∃ enc rest, bytes = enc ++ rest ∧ IsLeb enc ∧ enc.length = n ∧ n ≤ t.maxBytes ∧
      checkLast t (groups enc LebLoop.start) = .ok v := by
  obtain ⟨fits, read⟩ := ite_error_eq_ok.mp read
  obtain ⟨u, last, pair⟩ := bind_eq_ok.mp read
  rw [not_or, ge_iff_le, Nat.not_le, Bool.not_eq_true] at fits
  obtain ⟨enc, rest, seen, isLeb⟩ | all := isLeb_or_all (bytes.take (t.maxBytes + 1))
  · rw [seen, isLeb.readLoop_append] at fits last pair
    have pos := isLeb.length_pos
    have short : enc.length ≤ t.maxBytes := by
      have count : 0 + (enc.length - 1) < t.maxBytes := fits.1
      omega
    have whole : bytes = enc ++ (rest ++ bytes.drop (t.maxBytes + 1)) := by
      rw [← List.append_assoc, ← seen, List.take_append_drop]
    have used : (groups enc (LebLoop.start (w := t.width))).used = n := congrArg Prod.snd (Except.ok.inj pair)
    have value : u = v := congrArg Prod.fst (Except.ok.inj pair)
    rw [used_groups] at used
    exact ⟨enc, _, whole, isLeb, used, used ▸ short, value ▸ last⟩
  · have cut : bytes.take (t.maxBytes + 1) ≠ [] := by
      cases bytes with
      | nil => exact absurd rfl some
      | cons b bytes => exact List.cons_ne_nil _ _
    rw [more_readLoop _ cut all] at fits
    exact absurd fits.2 (by decide)

theorem readLEBNumber_of_isLeb {enc : List UInt8} {v : BitVec t.width} (isLeb : IsLeb enc)
    (short : enc.length ≤ t.maxBytes) (last : checkLast t (groups enc LebLoop.start) = .ok v)
    (rest : List UInt8) : readLEBNumber t (enc ++ rest) = .ok (v, enc.length) := by
  have seen : (enc ++ rest).take (t.maxBytes + 1) = enc ++ rest.take (t.maxBytes + 1 - enc.length) := by
    rw [List.take_append, List.take_of_length_le (by omega)]
  have pos := isLeb.length_pos
  rw [readLEBNumber, seen, isLeb.readLoop_append]
  refine ite_error_eq_ok.mpr ⟨?_, bind_eq_ok.mpr ⟨v, last, ?_⟩⟩
  · rw [not_or, ge_iff_le, Nat.not_le]
    refine ⟨?_, ?_⟩
    · show 0 + (enc.length - 1) < t.maxBytes
      omega
    · rw [isLeb.stops]
      exact Bool.false_ne_true
  · exact congrArg (fun n => Except.ok (v, n)) (used_groups enc)

/-- **The reader without checks** gives the same number. -/
theorem readSafeLEBNumber_of_read {v : BitVec t.width} {n : Nat} (some : bytes ≠ [])
    (read : readLEBNumber t bytes = .ok (v, n)) : readSafeLEBNumber t bytes = .some (v, n) := by
  obtain ⟨enc, rest, rfl, isLeb, rfl, -, last⟩ := readLEBNumber_isLeb some read
  rw [readSafeLEBNumber, isLeb.readSafeLoop_append, checkLast_value last]
  show Option.some (_, (groups enc LebLoop.start).used) = _
  rw [used_groups]

end Agreement

/-- **Skipping** a number that is followed by another byte: it goes well exactly if the number is not longer
than the type that is skipped can be. -/
theorem skipLEBNumber_isLeb (t : IntType) {enc rest : List UInt8} (isLeb : IsLeb enc) (some : rest ≠ []) :
    skipLEBNumber t (enc ++ rest) = if enc.length ≤ t.maxBytes then .some enc.length else none := by
  rw [skipLEBNumber]
  by_cases short : enc.length ≤ t.maxBytes
  · have seen : (enc ++ rest).take (t.maxBytes + 1) = enc ++ rest.take (t.maxBytes + 1 - enc.length) := by
      rw [List.take_append, List.take_of_length_le (by omega)]
    have left : enc.length < (enc ++ rest.take (t.maxBytes + 1 - enc.length)).length := by
      have pos := List.length_pos_iff.mpr some
      rw [List.length_append, List.length_take]
      omega
    rw [seen, isLeb.skipLoop_append, if_pos left, if_pos short]
  · have seen : (enc ++ rest).take (t.maxBytes + 1) = enc.take (t.maxBytes + 1) :=
      List.take_append_of_le_length (by omega)
    rw [seen, isLeb.skipLoop_take (by omega), if_neg short]
    refine if_neg ?_
    rw [List.length_take]
    omega

end Dtvm.Wasm
