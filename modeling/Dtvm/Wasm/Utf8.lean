import Mathlib

/-!
# Names in UTF-8

`validateUTF8String`, which the loader calls on names. Reading past the given length is a failure of its
own (`none`). The string is well formed when its bytes are the encodings of scalar values, one behind the
other; the check is exact, and never reads past the end (`validateUTF8String_exact`).
-/

namespace Dtvm.Wasm

/-- `String[I]`, as the integer that it is compared as. -/
def readByte (s : List UInt8) (i : Nat) : Option Nat := s[i]?.map UInt8.toNat

/-- `VALIDATE_TRAILING_BYTE`, for any range. -/
def byteIn (low high c : Nat) : Bool := !(c < low || c > high)

/-- The check of the second of three or four bytes, which depends on the first. -/
def secondByte (c c1 : Nat) : Bool :=
  if c = 0xE0 then byteIn 0xA0 0xBF c1
  else if c = 0xED then byteIn 0x80 0x9F c1
  else if c = 0xF0 then byteIn 0x90 0xBF c1
  else if c = 0xF4 then byteIn 0x80 0x8F c1
  else byteIn 0x80 0xBF c1

/-- The body of the loop: the length of the sequence at `i`, or none if `false` is returned. -/
def sequenceLength (s : List UInt8) (i : Nat) : Option (Option Nat) := do
  let c ← readByte s i
  if c ≤ 0x7F then pure (some 1)
  else if c ≥ 0xC2 ∧ c ≤ 0xDF ∧ i + 2 ≤ s.length then do
    let c1 ← readByte s (i + 1)
    pure (if byteIn 0x80 0xBF c1 then some 2 else none)
  else if c ≥ 0xE0 ∧ c ≤ 0xEF ∧ i + 3 ≤ s.length then do
    let c1 ← readByte s (i + 1)
    let c2 ← readByte s (i + 2)
    pure (if secondByte c c1 && byteIn 0x80 0xBF c2 then some 3 else none)
  else if c ≥ 0xF0 ∧ c ≤ 0xF4 ∧ i + 4 ≤ s.length then do
    let c1 ← readByte s (i + 1)
    let c2 ← readByte s (i + 2)
    let c3 ← readByte s (i + 3)
    pure (if secondByte c c1 && byteIn 0x80 0xBF c2 && byteIn 0x80 0xBF c3 then some 4 else none)
  else pure none

def validateLoop (s : List UInt8) : Nat → Nat → Option Bool
  | 0, _ => none
  | fuel + 1, i =>
    if i < s.length then
      (sequenceLength s i).bind fun
        | some n => validateLoop s fuel (i + n)
        | none => some false
    else some (i == s.length)

def validateUTF8String (s : List UInt8) : Option Bool := validateLoop s (s.length + 1) 0

/-! ## Scalar values and their encodings -/

abbrev Scalar := { n : Nat // n.isValidChar }

def utf8 (x : Scalar) : List Nat :=
  if x.1 < 0x80 then [x.1]
  else if x.1 < 0x800 then [0xC0 + x.1 / 64, 0x80 + x.1 % 64]
  else if x.1 < 0x10000 then [0xE0 + x.1 / 4096, 0x80 + x.1 / 64 % 64, 0x80 + x.1 % 64]
  else [0xF0 + x.1 / 262144, 0x80 + x.1 / 4096 % 64, 0x80 + x.1 / 64 % 64, 0x80 + x.1 % 64]

def WellFormed (s : List UInt8) : Prop := ∃ xs : List Scalar, s.map UInt8.toNat = xs.flatMap utf8

inductive Sequence : List Nat → Prop where
  | one {c : Nat} : c ≤ 0x7F → Sequence [c]
  | two {c c1 : Nat} : 0xC2 ≤ c → c ≤ 0xDF → byteIn 0x80 0xBF c1 → Sequence [c, c1]
  | three {c c1 c2 : Nat} : 0xE0 ≤ c → c ≤ 0xEF → secondByte c c1 && byteIn 0x80 0xBF c2 → Sequence [c, c1, c2]
  | four {c c1 c2 c3 : Nat} : 0xF0 ≤ c → c ≤ 0xF4 →
    secondByte c c1 && byteIn 0x80 0xBF c2 && byteIn 0x80 0xBF c3 → Sequence [c, c1, c2, c3]

theorem byteIn_iff {low high c : Nat} : byteIn low high c = true ↔ low ≤ c ∧ c ≤ high := by
  simp [byteIn]

theorem sequence_utf8 (x : Scalar) : Sequence (utf8 x) := by
  obtain ⟨n, valid⟩ := x
  have valid : n < 0xd800 ∨ 0xdfff < n ∧ n < 0x110000 := valid
  simp only [utf8]
  split_ifs with h1 h2 h3
  · exact .one (by omega)
  · exact .two (by omega) (by omega) (byteIn_iff.mpr (by omega))
  · refine .three (by omega) (by omega) ?_
    simp only [secondByte, Bool.and_eq_true]
    split_ifs <;> simp only [byteIn_iff] <;> omega
  · refine .four (by omega) (by omega) ?_
    simp only [secondByte, Bool.and_eq_true]
    split_ifs <;> simp only [byteIn_iff] <;> omega

theorem exists_utf8 {bytes : List Nat} (h : Sequence bytes) : ∃ x, utf8 x = bytes := by
  have valid {n : Nat} (h : n < 0xd800 ∨ 0xdfff < n ∧ n < 0x110000) : n.isValidChar := h
  cases h with
  | @one c small => exact ⟨⟨c, valid (by omega)⟩, if_pos (by dsimp only; omega)⟩
  | @two c c1 low high h1 =>
    rw [byteIn_iff] at h1
    refine ⟨⟨(c - 0xC0) * 64 + (c1 - 0x80), valid (by omega)⟩, ?_⟩
    simp only [utf8]
    rw [if_neg (by omega), if_pos (by omega)]
    simp only [List.cons.injEq, and_true]
    omega
  | @three c c1 c2 low high h1 =>
    simp only [secondByte, Bool.and_eq_true] at h1
    split_ifs at h1 <;> simp only [byteIn_iff] at h1 <;>
    · refine ⟨⟨(c - 0xE0) * 4096 + (c1 - 0x80) * 64 + (c2 - 0x80), valid (by omega)⟩, ?_⟩
      simp only [utf8]
      rw [if_neg (by omega), if_neg (by omega), if_pos (by omega)]
      simp only [List.cons.injEq, and_true]
      omega
  | @four c c1 c2 c3 low high h1 =>
    simp only [secondByte, Bool.and_eq_true] at h1
    split_ifs at h1 <;> simp only [byteIn_iff] at h1 <;>
    · refine ⟨⟨(c - 0xF0) * 262144 + (c1 - 0x80) * 4096 + (c2 - 0x80) * 64 + (c3 - 0x80), valid (by omega)⟩, ?_⟩
      simp only [utf8]
      rw [if_neg (by omega), if_neg (by omega), if_neg (by omega)]
      simp only [List.cons.injEq, and_true]
      omega

/-! ## The check -/

def lengthOf (c : Nat) : Nat := if c ≤ 0x7F then 1 else if c ≤ 0xDF then 2 else if c ≤ 0xEF then 3 else 4

theorem ite_some_iff {p : Prop} {b : Bool} (h : p ↔ b = true) (k n : Nat) :
    (if b then some k else none) = some n ↔ p ∧ k = n := by
  cases b <;> simp [h]

/-- The body of the loop finds the sequence at `i`, and reads nothing behind the end. -/
theorem sequenceLength_eq {s : List UInt8} {i : Nat} (inside : i < s.length) : ∃ r, sequenceLength s i = some r ∧
      ∀ n, r = some n ↔ ∃ bytes, Sequence bytes ∧ bytes.length = n ∧ bytes <+: (s.drop i).map UInt8.toNat := by
  have read (k : Nat) : readByte s (i + k) = ((s.drop i).map UInt8.toNat)[k]? := by
    rw [readByte, List.getElem?_map, List.getElem?_drop]
  have fits (k : Nat) : i + k ≤ s.length ↔ k ≤ ((s.drop i).map UInt8.toNat).length := by
    rw [List.length_map, List.length_drop]
    omega
  have first : readByte s i = ((s.drop i).map UInt8.toNat)[0]? := read 0
  have some : 0 < ((s.drop i).map UInt8.toNat).length := by
    rw [List.length_map, List.length_drop]
    omega
  simp only [sequenceLength, first, read, fits]
  generalize (s.drop i).map UInt8.toNat = t at some ⊢
  obtain ⟨c, t, rfl⟩ := List.exists_cons_of_length_pos some
  simp only [List.getElem?_cons_zero, Option.bind_eq_bind, Option.bind_some]
  -- a sequence in front is known by its first byte
  have known (n : Nat) : (∃ bytes, Sequence bytes ∧ bytes.length = n ∧ bytes <+: c :: t) ↔
      Sequence ((c :: t).take (lengthOf c)) ∧ ((c :: t).take (lengthOf c)).length = n := by
    refine ⟨?_, fun h => ⟨_, h.1, h.2, List.take_prefix _ _⟩⟩
    rintro ⟨bytes, sequence, length, rest, same⟩
    have whole : (c :: t).take (lengthOf c) = bytes := by
      rw [lengthOf]
      cases sequence <;> cases same <;> split_ifs <;> first | rfl | omega
    rw [whole]
    exact ⟨sequence, length⟩
  split_ifs with h1 h2 h3 h4
  · refine ⟨_, rfl, fun n => ?_⟩
    rw [known, lengthOf, if_pos h1]
    exact Option.some_inj.trans (and_iff_right (.one h1)).symm
  · obtain ⟨c1, t, rfl⟩ := List.exists_cons_of_length_pos (Nat.le_of_succ_le_succ h2.2.2)
    refine ⟨_, rfl, fun n => ?_⟩
    rw [known, lengthOf, if_neg h1, if_pos h2.2.1]
    refine ite_some_iff ⟨fun h => ?_, .two h2.1 h2.2.1⟩ 2 n
    cases h
    assumption
  · obtain ⟨c1, t, rfl⟩ := List.exists_cons_of_length_pos (show 0 < t.length by simp at h3; omega)
    obtain ⟨c2, t, rfl⟩ := List.exists_cons_of_length_pos (show 0 < t.length by simp at h3; omega)
    refine ⟨_, rfl, fun n => ?_⟩
    rw [known, lengthOf, if_neg h1, if_neg (show ¬ c ≤ 0xDF by omega), if_pos h3.2.1]
    refine ite_some_iff ⟨fun h => ?_, .three h3.1 h3.2.1⟩ 3 n
    cases h
    assumption
  · obtain ⟨c1, t, rfl⟩ := List.exists_cons_of_length_pos (show 0 < t.length by simp at h4; omega)
    obtain ⟨c2, t, rfl⟩ := List.exists_cons_of_length_pos (show 0 < t.length by simp at h4; omega)
    obtain ⟨c3, t, rfl⟩ := List.exists_cons_of_length_pos (show 0 < t.length by simp at h4; omega)
    refine ⟨_, rfl, fun n => ?_⟩
    rw [known, lengthOf, if_neg h1, if_neg (show ¬ c ≤ 0xDF by omega), if_neg (show ¬ c ≤ 0xEF by omega)]
    refine ite_some_iff ⟨fun h => ?_, .four h4.1 h4.2.1⟩ 4 n
    cases h
    assumption
  · refine ⟨_, rfl, fun n => iff_of_false (Option.some_ne_none n).symm ?_⟩
    rintro ⟨bytes, sequence, -, front⟩
    have length := front.length_le
    obtain ⟨rest, same⟩ := front
    cases sequence <;> obtain ⟨rfl, -⟩ := List.cons.inj same <;>
      simp only [List.length_cons, List.length_nil] at length h2 h3 h4 <;> omega

theorem validateLoop_exact (s : List UInt8) (fuel : Nat) {i : Nat} (le : i ≤ s.length) (enough : s.length - i < fuel) :
    ∃ valid, validateLoop s fuel i = some valid ∧ (valid = true ↔ WellFormed (s.drop i)) := by
  induction fuel generalizing i with
  | zero => exact absurd enough (Nat.not_lt_zero _)
  | succ fuel ih =>
    rw [validateLoop]
    by_cases inside : i < s.length
    · rw [if_pos inside]
      obtain ⟨r, found, iff⟩ := sequenceLength_eq inside
      -- the first of the encodings is the sequence that is found
      have first {xs : List Scalar} (same : (s.drop i).map UInt8.toNat = xs.flatMap utf8) :
          ∃ x ys, xs = x :: ys ∧ r = some (utf8 x).length := by
        cases xs with
        | nil =>
          have length := congrArg List.length same
          rw [List.length_map, List.length_drop, List.flatMap_nil, List.length_nil] at length
          omega
        | cons x ys => exact ⟨x, ys, rfl, (iff _).mpr ⟨_, sequence_utf8 x, rfl, _, same.symm⟩⟩
      rw [found, Option.bind_some]
      cases r with
      | none =>
        refine ⟨false, rfl, iff_of_false Bool.false_ne_true ?_⟩
        rintro ⟨xs, same⟩
        obtain ⟨x, ys, -, no⟩ := first same
        cases no
      | some n =>
        obtain ⟨bytes, sequence, rfl, rest, split⟩ := (iff n).mp rfl
        have pos : 0 < bytes.length := by cases sequence <;> exact Nat.succ_pos _
        obtain ⟨x, rfl⟩ := exists_utf8 sequence
        have length := congrArg List.length split
        rw [List.length_append, List.length_map, List.length_drop] at length
        have behind : (s.drop (i + (utf8 x).length)).map UInt8.toNat = rest := by
          rw [← List.drop_drop, List.map_drop, ← split, List.drop_left]
        obtain ⟨valid, loop, exact⟩ := ih (i := i + (utf8 x).length) (by omega) (by omega)
        refine ⟨valid, loop, exact.trans ⟨?_, ?_⟩⟩
        · rintro ⟨xs, same⟩
          exact ⟨x :: xs, by rw [← split, ← behind, same, List.flatMap_cons]⟩
        · rintro ⟨xs, same⟩
          obtain ⟨y, ys, rfl, eq⟩ := first same
          rw [← split, List.flatMap_cons] at same
          exact ⟨ys, behind.trans (List.append_inj same (Option.some.inj eq)).2⟩
    · obtain rfl : i = s.length := Nat.le_antisymm le (Nat.le_of_not_lt inside)
      rw [if_neg inside, List.drop_length]
      exact ⟨true, congrArg some (beq_self_eq_true _), iff_of_true rfl ⟨[], rfl⟩⟩

/-- **The check is exact**: it returns, having read no byte behind the end, and accepts the well-formed strings. -/
theorem validateUTF8String_exact (s : List UInt8) :
    ∃ valid, validateUTF8String s = some valid ∧ (valid = true ↔ WellFormed s) :=
  validateLoop_exact s (s.length + 1) (Nat.zero_le _) (Nat.lt_succ_of_le (Nat.sub_le _ _))

end Dtvm.Wasm
