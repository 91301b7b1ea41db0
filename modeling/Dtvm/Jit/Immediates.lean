import Dtvm.Evm.BigEndian
import Dtvm.Jit.RuntimeStack

/-!
# Loading the immediate of a `PUSH`

The interpreter's cache and the compiler read the immediate of a `PUSH` each in its own way. The cache loads
up to four 64-bit numbers from the end of the available bytes and shifts the word for the bytes that are
missing (`loadPushValue`); the compiler fills a buffer of zeros up (`readBytes`) and puts its bytes one by one
into limbs (`createU256FromBytes`). Either way the word is the big-endian number of the immediate, with zeros
for what lies past the end of the code.
-/

namespace Dtvm

/-- The bits of a big-endian number are the bits of its bytes, the last byte first. -/
theorem testBit_beNat (bytes : Bytes) (k : Nat) :
    (beNat bytes).testBit k = (bytes.reverse.getD (k / 8) 0).toNat.testBit (k % 8) := by
  induction bytes using List.reverseRecOn generalizing k with
  | nil =>
    show Nat.testBit 0 k = Nat.testBit 0 (k % 8)
    rw [Nat.zero_testBit, Nat.zero_testBit]
  | append_singleton bytes b ih =>
    have small : b.toNat < 2 ^ 8 := b.toNat_lt
    rw [beNat_concat, Nat.mul_comm, show 256 = 2 ^ 8 from rfl, Nat.testBit_two_pow_mul_add _ small,
      List.reverse_append, List.reverse_singleton, List.singleton_append]
    by_cases low : k < 8
    · rw [if_pos low, Nat.div_eq_of_lt low, Nat.mod_eq_of_lt low, List.getD_cons_zero]
    · rw [if_neg low, ih, show k / 8 = (k - 8) / 8 + 1 by omega, show k % 8 = (k - 8) % 8 by omega,
        List.getD_cons_succ]

theorem byte_beNat_reverse (memory : Bytes) (i : Nat) :
    UInt8.ofNat (beNat memory.reverse / 256 ^ i) = memory.getD i 0 := by
  induction memory generalizing i with
  | nil =>
    rw [List.reverse_nil, beNat, List.foldl_nil, Nat.zero_div]
    rfl
  | cons b memory ih =>
    have small : b.toNat < 256 := b.toNat_lt
    rw [List.reverse_cons, beNat_concat]
    cases i with
    | zero =>
      rw [Nat.pow_zero, Nat.div_one, List.getD_cons_zero]
      apply UInt8.toNat_inj.mp
      rw [UInt8.toNat_ofNat']
      omega
    | succ i =>
      have above : (beNat memory.reverse * 256 + b.toNat) / 256 = beNat memory.reverse := by omega
      rw [Nat.pow_succ', ← Nat.div_div_eq_div_mul, above, ih, List.getD_cons_succ]

namespace Jit

/-! ## The cache -/

def le64 (memory : Bytes) : Nat := beNat memory.reverse

/-- `intx::to_big_endian`: the bytes in the other order. -/
def toBigEndian (value : Nat) : Nat := beNat ((List.range 8).map fun i => UInt8.ofNat (value / 256 ^ i))

def loadBeUint64 (src : Bytes) : Nat := toBigEndian (le64 (src.take 8))

/-- `loadBeUint64Partial`: the bytes are copied to the end of a number that is zero. -/
def loadBeUint64Partial (src : Bytes) (len : Nat) : Nat :=
  if len = 0 then 0
  else if len = 8 then loadBeUint64 src
  else toBigEndian (le64 (List.replicate (8 - len) 0 ++ src.take len))

/-- A word of which the limbs are written from the low one on. -/
def ofLimbList (limbs : List Nat) : Word := ofLimbs fun i => BitVec.ofNat 64 (limbs.getD i 0)

def loadBeUint256 (src : Bytes) (len : Nat) : Word :=
  if len ≤ 8 then ofLimbList [loadBeUint64Partial src len]
  else if len ≤ 16 then
    ofLimbList [loadBeUint64 (src.drop (len - 8)), loadBeUint64Partial src (len - 8)]
  else if len ≤ 24 then
    ofLimbList [loadBeUint64 (src.drop (len - 8)), loadBeUint64 (src.drop (len - 16)),
      loadBeUint64Partial src (len - 16)]
  else
    ofLimbList [loadBeUint64 (src.drop (len - 8)), loadBeUint64 (src.drop (len - 16)),
      loadBeUint64 (src.drop (len - 24)), loadBeUint64Partial src (len - 24)]

def loadPushValue (code : Bytes) (pc numBytes : Nat) : Word :=
  let offset := pc + 1
  if code.length ≤ offset then 0
  else
    let copyBytes := min numBytes (code.length - offset)
    if copyBytes = 0 then 0
    else
      let value := loadBeUint256 (code.drop offset) copyBytes
      let missingBytes := numBytes - copyBytes
      if missingBytes ≠ 0 then value <<< (missingBytes * 8) else value

theorem toBigEndian_le64 {memory : Bytes} (length : memory.length = 8) : toBigEndian (le64 memory) = beNat memory := by
  rw [toBigEndian]
  congr 1
  apply List.ext_getElem
  · rw [List.length_map, List.length_range, length]
  · intro i _ inside
    rw [List.getElem_map, List.getElem_range, le64, byte_beNat_reverse, List.getD_eq_getElem?_getD,
      List.getElem?_eq_getElem inside, Option.getD_some]

theorem loadBeUint64_eq {src : Bytes} (enough : 8 ≤ src.length) : loadBeUint64 src = beNat (src.take 8) :=
  toBigEndian_le64 (by rw [List.length_take]; omega)

theorem loadBeUint64Partial_eq {src : Bytes} {len : Nat} (enough : len ≤ src.length) (le : len ≤ 8) :
    loadBeUint64Partial src len = beNat (src.take len) := by
  unfold loadBeUint64Partial
  split_ifs with none whole
  · subst none
    rfl
  · subst whole
    exact loadBeUint64_eq enough
  · rw [toBigEndian_le64 (by rw [List.length_append, List.length_replicate, List.length_take]; omega),
      beNat_append, beNat_zeros, Nat.zero_mul, Nat.zero_add]

theorem beNat_take {src : Bytes} {len : Nat} (enough : len ≤ src.length) (some : 8 ≤ len) :
    beNat (src.take len) = loadBeUint64 (src.drop (len - 8)) + 2 ^ 64 * beNat (src.take (len - 8)) := by
  have parts : src.take len = src.take (len - 8) ++ (src.drop (len - 8)).take 8 := by
    rw [← List.take_add, Nat.sub_add_cancel some]
  have inside : 8 ≤ (src.drop (len - 8)).length := by
    rw [List.length_drop]
    omega
  rw [parts, beNat_append, loadBeUint64_eq inside, List.length_take, Nat.min_eq_left inside]
  omega

theorem loadBeUint64_lt (src : Bytes) : loadBeUint64 src < 2 ^ 64 := by
  have small := beNat_lt ((List.range 8).map fun i => UInt8.ofNat (le64 (src.take 8) / 256 ^ i))
  rw [List.length_map, List.length_range] at small
  exact Nat.lt_of_lt_of_le small (by decide)

theorem beNat_take_lt (src : Bytes) {len : Nat} (le : len ≤ 8) : beNat (src.take len) < 2 ^ 64 := by
  have small := beNat_lt (src.take len)
  have short : (src.take len).length ≤ 8 := Nat.le_trans (List.length_take_le len src) le
  exact Nat.lt_of_lt_of_le small (Nat.pow_le_pow_right (by decide) short)

theorem toNat_ofLimbList (a b c d : Nat) (ha : a < 2 ^ 64) (hb : b < 2 ^ 64) (hc : c < 2 ^ 64) (hd : d < 2 ^ 64) :
    (ofLimbList [a, b, c, d]).toNat = a + 2 ^ 64 * (b + 2 ^ 64 * (c + 2 ^ 64 * d)) := by
  rw [ofLimbList, toNat_ofLimbs]
  simp only [List.getD_cons_zero, List.getD_cons_succ, BitVec.toNat_ofNat, Nat.mod_eq_of_lt, ha, hb, hc, hd]
  omega

theorem ofLimbList_append (limbs : List Nat) : ofLimbList (limbs ++ [0]) = ofLimbList limbs := by
  unfold ofLimbList
  congr 1
  funext i
  congr 1
  rw [List.getD_eq_getElem?_getD, List.getD_eq_getElem?_getD, List.getElem?_append]
  split
  · rfl
  · next past =>
    rw [List.getElem?_eq_none (Nat.not_lt.mp past)]
    cases i - limbs.length <;> rfl

/-- **Four partial loads make the big-endian number.** -/
theorem toNat_loadBeUint256 {src : Bytes} {len : Nat} (enough : len ≤ src.length) (fits : len ≤ 32) :
    (loadBeUint256 src len).toNat = beNat (src.take len) := by
  have zero : 0 < 2 ^ 64 := by decide
  have rest {k : Nat} (le : k ≤ len) (small : k ≤ 8) :
      loadBeUint64Partial src k = beNat (src.take k) ∧ loadBeUint64Partial src k < 2 ^ 64 := by
    have eq := loadBeUint64Partial_eq (Nat.le_trans le enough) small
    exact ⟨eq, eq ▸ beNat_take_lt src small⟩
  unfold loadBeUint256
  split_ifs with one two three
  · obtain ⟨eq, lt⟩ := rest (Nat.le_refl len) one
    rw [← ofLimbList_append, ← ofLimbList_append, ← ofLimbList_append]
    show (ofLimbList [_, 0, 0, 0]).toNat = _
    rw [toNat_ofLimbList _ _ _ _ lt zero zero zero, eq, Nat.mul_zero, Nat.add_zero, Nat.mul_zero, Nat.add_zero,
      Nat.mul_zero, Nat.add_zero]
  · obtain ⟨eq, lt⟩ := rest (Nat.sub_le len 8) (by omega)
    rw [← ofLimbList_append, ← ofLimbList_append]
    show (ofLimbList [_, _, 0, 0]).toNat = _
    rw [toNat_ofLimbList _ _ _ _ (loadBeUint64_lt _) lt zero zero, beNat_take enough (by omega), eq,
      Nat.mul_zero, Nat.add_zero, Nat.mul_zero, Nat.add_zero]
  · obtain ⟨eq, lt⟩ := rest (Nat.sub_le len 16) (by omega)
    rw [← ofLimbList_append]
    show (ofLimbList [_, _, _, 0]).toNat = _
    rw [toNat_ofLimbList _ _ _ _ (loadBeUint64_lt _) (loadBeUint64_lt _) lt zero,
      beNat_take enough (by omega), beNat_take (by omega) (by omega), Nat.sub_sub, eq, Nat.mul_zero, Nat.add_zero]
  · obtain ⟨eq, lt⟩ := rest (Nat.sub_le len 24) (by omega)
    rw [toNat_ofLimbList _ _ _ _ (loadBeUint64_lt _) (loadBeUint64_lt _) (loadBeUint64_lt _) lt,
      beNat_take enough (by omega), beNat_take (by omega) (by omega), Nat.sub_sub,
      beNat_take (by omega) (by omega), Nat.sub_sub, eq]

theorem loadBeUint256_eq {src : Bytes} {len : Nat} (enough : len ≤ src.length) (fits : len ≤ 32) :
    loadBeUint256 src len = Word.load (src.take len) := by
  apply BitVec.eq_of_toNat_eq
  have own := toNat_loadBeUint256 enough fits
  rw [Word.toNat_load, ← own, Nat.mod_eq_of_lt (loadBeUint256 src len).isLt]

theorem loadPushValue_eq (code : Bytes) (pc : Nat) {numBytes : Nat} (fits : numBytes ≤ 32) :
    loadPushValue code pc numBytes = Cache.loadPushValue code pc numBytes := by
  have length : ((code.drop (pc + 1)).take numBytes).length = min numBytes (code.length - (pc + 1)) := by
    rw [List.length_take, List.length_drop]
  have missing : (code.drop (pc + 1)).take numBytes =
      (code.drop (pc + 1)).take (min numBytes (code.length - (pc + 1))) := by
    rw [← List.length_drop, List.take_eq_take_min]
  have empty (none : min numBytes (code.length - (pc + 1)) = 0) : Cache.loadPushValue code pc numBytes = 0 := by
    rw [none, List.length_eq_zero_iff] at length
    rw [Cache.loadPushValue, length]
    exact BitVec.zero_shiftLeft _
  unfold loadPushValue
  simp only
  split_ifs with past none full
  · exact (empty (by omega)).symm
  · exact (empty none).symm
  · rw [loadBeUint256_eq (by rw [List.length_drop]; omega) (by omega), Cache.loadPushValue, length, ← missing]
  · rw [loadBeUint256_eq (by rw [List.length_drop]; omega) (by omega), Cache.loadPushValue, length, ← missing,
      Decidable.not_not.mp full, Nat.zero_mul, BitVec.shiftLeft_zero]

/-! ## The compiler -/

def evmMaxPushImmediateSize : Nat := 32

/-- `readBytes` at a program counter: the bytes of the code over a buffer of zeros. -/
def readBytes (code : Bytes) (pc count : Nat) : Bytes :=
  let start := pc + 1
  let available := if start < code.length then code.length - start else 0
  let readCount := if count < available then count else available
  ((List.range evmMaxPushImmediateSize).map fun i => if i < readCount then byteAt code (start + i) else 0).take count

/-- The byte at `i` of `createU256FromBytes`, in its limb. -/
def putByte (data : Bytes) (actualLength start : Nat) (result : Nat → BitVec 64) (i : Nat) : Nat → BitVec 64 :=
  let globalBytePos := actualLength - 1 - i
  let u64Index := globalBytePos / 8
  let byteInU64 := globalBytePos % 8
  if u64Index < 4 then
    Function.update result u64Index
      (result u64Index ||| BitVec.ofNat 64 (data.getD (start + i) 0).toNat <<< (byteInU64 * 8))
  else result

def createU256FromBytes (data : Bytes) : Nat → BitVec 64 :=
  let start := if 32 < data.length then data.length - 32 else 0
  let actualLength := if 32 < data.length then 32 else data.length
  (List.range actualLength).foldl (putByte data actualLength start) fun _ => 0

/-- `handlePush`: the constant of a `PUSH`. -/
def handlePush (code : Bytes) (pc count : Nat) : Nat → BitVec 64 := createU256FromBytes (readBytes code pc count)

theorem readBytes_eq (code : Bytes) (pc : Nat) {count : Nat} (fits : count ≤ 32) :
    readBytes code pc count = immediate code pc count := by
  have taken : ((code.drop (pc + 1)).take count).length = min count (code.length - (pc + 1)) := by
    rw [List.length_take, List.length_drop]
  have readCount : (if count < (if pc + 1 < code.length then code.length - (pc + 1) else 0) then count
      else if pc + 1 < code.length then code.length - (pc + 1) else 0) = min count (code.length - (pc + 1)) := by
    split_ifs <;> omega
  apply List.ext_getElem
  · rw [readBytes, List.length_take, List.length_map, List.length_range, length_immediate, evmMaxPushImmediateSize]
    omega
  · intro i _ inside
    rw [length_immediate] at inside
    simp only [readBytes, readCount, List.getElem_take, List.getElem_map, List.getElem_range, immediate]
    split
    · next within =>
      have here : pc + 1 + i < code.length := by omega
      rw [List.getElem_append_left (by rw [taken]; exact within), List.getElem_take, List.getElem_drop,
        byteAt, List.getD_eq_getElem?_getD, List.getElem?_eq_getElem here, Option.getD_some]
    · next past =>
      rw [List.getElem_append_right (by rw [taken]; exact Nat.not_lt.mp past), List.getElem_replicate]

theorem getLsbD_byte_shift (b : UInt8) {r k : Nat} (inside : k < 64) :
    (BitVec.ofNat 64 b.toNat <<< (r * 8)).getLsbD k = (decide (k / 8 = r) && b.toNat.testBit (k % 8)) := by
  have small : b.toNat < 2 ^ 8 := b.toNat_lt
  rw [BitVec.getLsbD_shiftLeft, decide_eq_true inside, Bool.true_and, BitVec.getLsbD_ofNat]
  by_cases here : k / 8 = r
  · rw [decide_eq_true here, Bool.true_and, decide_eq_false (by omega : ¬ k < r * 8), Bool.not_false, Bool.true_and,
      decide_eq_true (by omega : k - r * 8 < 64), Bool.true_and, show k - r * 8 = k % 8 by omega]
  · rw [decide_eq_false here, Bool.false_and]
    by_cases low : k < r * 8
    · rw [decide_eq_true low, Bool.not_true, Bool.false_and]
    · have high : b.toNat.testBit (k - r * 8) = false :=
        Nat.testBit_lt_two_pow (Nat.lt_of_lt_of_le small (Nat.pow_le_pow_right (by decide) (by omega)))
      rw [high, Bool.and_false, Bool.and_false]

theorem getLsbD_foldl_putByte {data : Bytes} (fits : data.length ≤ 32) {n : Nat} (le : n ≤ data.length)
    {j k : Nat} (inside : k < 64) :
    (((List.range n).foldl (putByte data data.length 0) fun _ => 0) j).getLsbD k =
      (decide (data.length - n ≤ 8 * j + k / 8) && (data.reverse.getD (8 * j + k / 8) 0).toNat.testBit (k % 8)) := by
  induction n with
  | zero =>
    rw [List.range_zero, List.foldl_nil, show BitVec.getLsbD (0 : BitVec 64) k = false from BitVec.getLsbD_zero,
      Nat.sub_zero]
    by_cases past : data.length ≤ 8 * j + k / 8
    · rw [List.getD_eq_getElem?_getD, List.getElem?_eq_none (by rw [List.length_reverse]; exact past)]
      show false = (_ && Nat.testBit 0 _)
      rw [Nat.zero_testBit, Bool.and_false]
    · rw [decide_eq_false past, Bool.false_and]
  | succ n ih =>
    have pos_lt : (data.length - 1 - n) / 8 < 4 := by omega
    have byte : data.getD (0 + n) 0 = data.reverse.getD (data.length - 1 - n) 0 := by
      rw [Nat.zero_add, List.getD_eq_getElem?_getD, List.getD_eq_getElem?_getD,
        List.getElem?_reverse (by omega), show data.length - 1 - (data.length - 1 - n) = n by omega]
    rw [List.range_succ, List.foldl_append, List.foldl_cons, List.foldl_nil, putByte]
    rw [if_pos pos_lt, Function.update_apply]
    by_cases here : j = (data.length - 1 - n) / 8
    · rw [if_pos here, ← here, BitVec.getLsbD_or, ih (by omega), getLsbD_byte_shift _ inside, byte]
      by_cases same : k / 8 = (data.length - 1 - n) % 8
      · rw [decide_eq_false (by omega : ¬ data.length - n ≤ 8 * j + k / 8), Bool.false_and, Bool.false_or,
          decide_eq_true same, Bool.true_and, decide_eq_true (by omega), Bool.true_and,
          show 8 * j + k / 8 = data.length - 1 - n by omega]
      · rw [decide_eq_false same, Bool.false_and, Bool.or_false,
          decide_eq_decide.mpr (by omega : data.length - n ≤ 8 * j + k / 8 ↔
            data.length - (n + 1) ≤ 8 * j + k / 8)]
    · rw [if_neg here, ih (by omega), decide_eq_decide.mpr (by omega :
        data.length - n ≤ 8 * j + k / 8 ↔ data.length - (n + 1) ≤ 8 * j + k / 8)]

theorem getLsbD_ofLimbs (x : Nat → BitVec 64) {k : Nat} (inside : k < 256) :
    (ofLimbs x).getLsbD k = (x (k / 64)).getLsbD (k % 64) := by
  have own := limb_ofLimbs x (show k / 64 < 4 by omega)
  rw [← own, limb, BitVec.getLsbD_extractLsb', decide_eq_true (by omega), Bool.true_and,
    show 64 * (k / 64) + k % 64 = k by omega]

/-- **Bytes put into limbs one by one make the big-endian number.** -/
theorem toNat_createU256FromBytes {data : Bytes} (fits : data.length ≤ 32) :
    (ofLimbs (createU256FromBytes data)).toNat = beNat data := by
  have small : beNat data < 2 ^ 256 :=
    Nat.lt_of_lt_of_le (beNat_lt data) (Nat.le_trans (Nat.pow_le_pow_right (by decide) fits) (by decide))
  apply Nat.eq_of_testBit_eq
  intro k
  by_cases inside : k < 256
  · rw [← BitVec.getLsbD, getLsbD_ofLimbs _ inside, createU256FromBytes]
    rw [if_neg (Nat.not_lt.mpr fits), if_neg (Nat.not_lt.mpr fits),
      getLsbD_foldl_putByte fits (Nat.le_refl _) (by omega), Nat.sub_self,
      decide_eq_true (Nat.zero_le _), Bool.true_and, testBit_beNat,
      show 8 * (k / 64) + k % 64 / 8 = k / 8 by omega, show k % 64 % 8 = k % 8 by omega]
  · have power : 2 ^ 256 ≤ 2 ^ k := Nat.pow_le_pow_right (by decide) (Nat.not_lt.mp inside)
    rw [Nat.testBit_lt_two_pow (Nat.lt_of_lt_of_le small power),
      Nat.testBit_lt_two_pow (Nat.lt_of_lt_of_le (BitVec.isLt _) power)]

theorem toNat_handlePush (code : Bytes) (pc : Nat) {count : Nat} (fits : count ≤ 32) :
    (ofLimbs (handlePush code pc count)).toNat = beNat (immediate code pc count) := by
  rw [handlePush, readBytes_eq code pc fits]
  exact toNat_createU256FromBytes (by rw [length_immediate]; exact fits)

end Jit

end Dtvm
