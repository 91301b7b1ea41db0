import Dtvm.Jit.Dispatch

/-!
# The operand stack of compiled code in memory

Compiled code keeps the words of the stack in the instance's `EVMStack`, a buffer of 1024 slots, each word
as four 64-bit limbs with their low bytes first, and the size of the used part in bytes. `stackPush`
writes one word; what a buffer holds is read off its bytes (`RuntimeStack.Holds`).
-/

namespace Dtvm.Jit

/-! ## Words as limbs -/

def ofLimbs (x : Nat → BitVec 64) : Word := x 3 ++ x 2 ++ x 1 ++ x 0

theorem toNat_ofLimbs (x : Nat → BitVec 64) :
    (ofLimbs x).toNat = (x 0).toNat + 2 ^ 64 * (x 1).toNat + 2 ^ 128 * (x 2).toNat + 2 ^ 192 * (x 3).toNat := by
  have h0 := (x 0).isLt
  have h1 := (x 1).isLt
  have h2 := (x 2).isLt
  simp only [ofLimbs, BitVec.toNat_append]
  rw [← Nat.shiftLeft_add_eq_or_of_lt h0, ← Nat.shiftLeft_add_eq_or_of_lt h1, ← Nat.shiftLeft_add_eq_or_of_lt h2]
  simp only [Nat.shiftLeft_eq]
  omega

theorem ofLimbs_limb (w : Word) : ofLimbs (limb w) = w := by
  have h := w.isLt
  apply BitVec.eq_of_toNat_eq
  rw [toNat_ofLimbs, toNat_limb, toNat_limb, toNat_limb, toNat_limb]
  omega

theorem limb_ofLimbs (x : Nat → BitVec 64) {i : Nat} (h : i < 4) : limb (ofLimbs x) i = x i := by
  have h0 := (x 0).isLt
  have h1 := (x 1).isLt
  have h2 := (x 2).isLt
  have h3 := (x 3).isLt
  apply BitVec.eq_of_toNat_eq
  rw [toNat_limb, toNat_ofLimbs]
  obtain rfl | rfl | rfl | rfl : i = 0 ∨ i = 1 ∨ i = 2 ∨ i = 3 := by omega
  all_goals omega

theorem ofLimbs_eq_iff {x : Nat → BitVec 64} {w : Word} : ofLimbs x = w ↔ ∀ i < 4, x i = limb w i := by
  constructor
  · rintro rfl i h
    exact (limb_ofLimbs x h).symm
  · intro h
    rw [← ofLimbs_limb w, ofLimbs, ofLimbs, h 0 (by omega), h 1 (by omega), h 2 (by omega),
      h 3 (by omega)]

/-! ## The run-time stack -/

/-- A 64-bit store: the bytes of a limb, the lowest one first. -/
def storeLimb (x : BitVec 64) : Bytes := (List.range 8).map fun k => UInt8.ofNat (x.toNat / 256 ^ k)

def storeWord (w : Word) : Bytes := (List.range 4).flatMap fun i => storeLimb (limb w i)

theorem length_storeWord (w : Word) : (storeWord w).length = 32 := rfl

theorem getElem?_storeWord (w : Word) {i : Nat} (h : i < 4) :
    (storeWord w)[8 * i]? = some (UInt8.ofNat (limb w i).toNat) := by
  obtain rfl | rfl | rfl | rfl : i = 0 ∨ i = 1 ∨ i = 2 ∨ i = 3 := by omega
  all_goals
    show some (UInt8.ofNat ((limb w _).toNat / 256 ^ 0)) = _
    rw [Nat.pow_zero, Nat.div_one]

def evmStackCapacity : Nat := 32768

/-- `EVMStack` and its size in bytes. -/
structure RuntimeStack where
  buffer : Bytes
  size : Nat

def RuntimeStack.stackPush (s : RuntimeStack) (w : Word) : RuntimeStack where
  buffer := s.buffer.take s.size ++ storeWord w ++ s.buffer.drop (s.size + 32)
  size := s.size + 32

structure RuntimeStack.Holds (s : RuntimeStack) (words : List Word) : Prop where
  capacity : s.buffer.length = evmStackCapacity
  size : s.size = 32 * words.length
  bytes : s.buffer.take s.size = words.flatMap storeWord
  room : words.length ≤ maxStack

theorem RuntimeStack.Holds.stackPush {s : RuntimeStack} {words : List Word} (h : s.Holds words)
    (room : words.length < maxStack) (w : Word) : (s.stackPush w).Holds (words ++ [w]) := by
  obtain ⟨capacity, size, bytes, -⟩ := h
  rw [evmStackCapacity] at capacity
  rw [maxStack] at room
  have before : (s.buffer.take s.size).length = s.size := by
    rw [List.length_take]
    omega
  refine ⟨?_, ?_, ?_, ?_⟩
  · rw [RuntimeStack.stackPush, List.length_append, List.length_append, before, length_storeWord,
      List.length_drop, evmStackCapacity]
    omega
  · show s.size + 32 = _
    rw [List.length_append, List.length_singleton]
    omega
  · have pushed : (s.buffer.take s.size ++ storeWord w).length = s.size + 32 := by
      rw [List.length_append, before, length_storeWord]
    rw [RuntimeStack.stackPush, List.take_left' pushed, bytes, List.flatMap_append, List.flatMap_singleton]
  · rw [List.length_append, List.length_singleton, maxStack]
    omega

theorem RuntimeStack.holds_pushes {buffer : Bytes} (capacity : buffer.length = evmStackCapacity)
    (words : List Word) (room : words.length ≤ maxStack) :
    (words.foldl RuntimeStack.stackPush ⟨buffer, 0⟩).Holds words := by
  induction words using List.reverseRecOn with
  | nil => exact ⟨capacity, rfl, rfl, room⟩
  | append_singleton words w ih =>
    rw [List.length_append, List.length_singleton] at room
    rw [List.foldl_append]
    exact (ih (by omega)).stackPush room w

theorem getElem?_flatMap {α β : Type} {f : α → List β} {n : Nat} (len : ∀ a, (f a).length = n)
    {k : Nat} (h : k < n) (l : List α) (i : Nat) : (l.flatMap f)[n * i + k]? = l[i]?.bind fun a => (f a)[k]? := by
  induction l generalizing i with
  | nil => rfl
  | cons a l ih =>
    rw [List.flatMap_cons]
    cases i with
    | zero =>
      rw [Nat.mul_zero, Nat.zero_add, List.getElem?_append_left (by rw [len]; exact h)]
      rfl
    | succ i =>
      have past : (f a).length ≤ n * (i + 1) + k := by
        rw [len, Nat.mul_succ]
        omega
      rw [List.getElem?_append_right past, len, List.getElem?_cons_succ, ← ih i]
      congr 1
      rw [Nat.mul_succ]
      omega

theorem RuntimeStack.Holds.byte {s : RuntimeStack} {words : List Word} (h : s.Holds words) {i : Nat}
    (within : i < words.length) {j : Nat} (limb_lt : j < 4) :
    s.buffer[32 * i + 8 * j]? = some (UInt8.ofNat (limb words[i] j).toNat) := by
  have below : 32 * i + 8 * j < s.size := by
    rw [h.size]
    omega
  have offset : 8 * j < 32 := by omega
  calc s.buffer[32 * i + 8 * j]?
      = (s.buffer.take s.size)[32 * i + 8 * j]? := (List.getElem?_take_of_lt below).symm
    _ = words[i]?.bind fun w => (storeWord w)[8 * j]? := by
      rw [h.bytes, getElem?_flatMap length_storeWord offset]
    _ = (storeWord words[i])[8 * j]? := by rw [List.getElem?_eq_getElem within, Option.bind_some]
    _ = some (UInt8.ofNat (limb words[i] j).toNat) := getElem?_storeWord _ limb_lt

end Dtvm.Jit
