import Dtvm.Evm.Cache
import Mathlib.Tactic.Ring

/-!
# Bytes as numbers

The number that bytes stand for, the most significant one first (`beNat`), and the words that are read
from bytes in the source: `intx::be::load` and the immediate of a `PUSH`, which may run past the end of the
code and is then filled up with zeros (`toNat_loadPushValue`).
-/

namespace Dtvm

/-- The number of some bytes, the most significant one first. -/
def beNat (bytes : Bytes) : Nat := bytes.foldl (fun acc b => acc * 256 + b.toNat) 0

theorem foldl_beNat (bytes : Bytes) (acc : Nat) :
    bytes.foldl (fun acc b => acc * 256 + b.toNat) acc = acc * 256 ^ bytes.length + beNat bytes := by
  induction bytes generalizing acc with
  | nil => exact (Nat.mul_one acc).symm
  | cons b bytes ih =>
    rw [beNat, List.foldl_cons, List.foldl_cons, ih, ih, List.length_cons, Nat.pow_succ]
    ring

theorem beNat_append (xs ys : Bytes) : beNat (xs ++ ys) = beNat xs * 256 ^ ys.length + beNat ys := by
  rw [beNat, List.foldl_append, foldl_beNat]
  rfl

theorem beNat_concat (bytes : Bytes) (b : UInt8) : beNat (bytes ++ [b]) = beNat bytes * 256 + b.toNat := by
  rw [beNat, List.foldl_append]
  rfl

theorem beNat_zeros (k : Nat) : beNat (List.replicate k 0) = 0 := by
  induction k with
  | zero => rfl
  | succ k ih =>
    rw [List.replicate_succ', beNat_concat, ih]
    rfl

theorem beNat_lt (bytes : Bytes) : beNat bytes < 256 ^ bytes.length := by
  induction bytes using List.reverseRecOn with
  | nil => exact Nat.one_pos
  | append_singleton bytes b ih =>
    have small := b.toNat_lt
    rw [beNat_concat, List.length_append, List.length_singleton, Nat.pow_succ]
    omega

theorem Word.toNat_shift_or (w : Word) (b : UInt8) :
    ((w <<< 8) ||| BitVec.ofNat 256 b.toNat).toNat = (w.toNat * 256 + b.toNat) % 2 ^ 256 := by
  have small := b.toNat_lt
  have shift : (w <<< 8).toNat = (w.toNat % 2 ^ 248) <<< 8 := by
    rw [BitVec.toNat_shiftLeft, Nat.shiftLeft_eq, Nat.shiftLeft_eq, ← Nat.mul_mod_mul_right, ← Nat.pow_add]
  rw [BitVec.toNat_or, shift, BitVec.toNat_ofNat, Nat.mod_eq_of_lt (b := 2 ^ 256) (by omega),
    ← Nat.shiftLeft_add_eq_or_of_lt (by omega), Nat.shiftLeft_eq]
  omega

theorem Word.toNat_load (bytes : Bytes) : (Word.load bytes).toNat = beNat bytes % 2 ^ 256 := by
  induction bytes using List.reverseRecOn with
  | nil => rfl
  | append_singleton bytes b ih =>
    rw [Word.load] at ih ⊢
    rw [List.foldl_append, List.foldl_cons, List.foldl_nil, Word.toNat_shift_or, ih, beNat_concat]
    omega

theorem foldl_low (read : Nat → UInt8) (is : List Nat) :
    is.foldl (fun low i => (low * 256 + (read i).toNat) % 2 ^ 64) 0 = beNat (is.map read) % 2 ^ 64 := by
  induction is using List.reverseRecOn with
  | nil => rfl
  | append_singleton is i ih =>
    rw [List.foldl_append, List.foldl_cons, List.foldl_nil, ih, List.map_append, List.map_singleton, beNat_concat]
    omega

/-- The immediate of a `PUSH` at `pc`, with the zeros after the end of the code. -/
def immediate (code : Bytes) (pc numBytes : Nat) : Bytes :=
  (code.drop (pc + 1)).take numBytes ++
    List.replicate (numBytes - ((code.drop (pc + 1)).take numBytes).length) 0

theorem length_immediate (code : Bytes) (pc numBytes : Nat) : (immediate code pc numBytes).length = numBytes := by
  rw [immediate, List.length_append, List.length_replicate]
  have le := List.length_take_le numBytes (code.drop (pc + 1))
  omega

theorem toNat_loadPushValue (code : Bytes) (pc : Nat) {numBytes : Nat} (fits : numBytes ≤ 32) :
    (Cache.loadPushValue code pc numBytes).toNat = beNat (immediate code pc numBytes) := by
  have small := beNat_lt (immediate code pc numBytes)
  have le := List.length_take_le numBytes (code.drop (pc + 1))
  rw [length_immediate] at small
  have fits : beNat (immediate code pc numBytes) < 2 ^ 256 :=
    Nat.lt_of_lt_of_le small (Nat.le_trans (Nat.pow_le_pow_right (by decide) fits) (by decide))
  rw [immediate, beNat_append, beNat_zeros, Nat.add_zero, List.length_replicate] at fits ⊢
  rw [Cache.loadPushValue]
  generalize (code.drop (pc + 1)).take numBytes = available at fits le ⊢
  have power : 2 ^ ((numBytes - available.length) * 8) = 256 ^ (numBytes - available.length) := by
    rw [Nat.mul_comm, Nat.pow_mul]
  rw [BitVec.toNat_shiftLeft, Word.toNat_load, Nat.shiftLeft_eq, power, Nat.mod_mul_mod, Nat.mod_eq_of_lt fits]

end Dtvm
