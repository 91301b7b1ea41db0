import Dtvm.Evm.Handlers
import Dtvm.Text.Readable

/-!
# The RLP encoding

`rlp_encoding.cpp`, and what `computeCreateAddress` hashes. Lengths are of type `size_t`, below 2^64. The
encodings are the canonical ones, no encoding is the front of another, and different items have different
encodings (`encodings_readable`).
-/

namespace Dtvm.Rlp

open Text

/-- The loop of `encodeLength`, which puts the low byte of `Temp` in front; eight turns are enough. -/
def lengthLoop : Nat → Nat → Bytes → Bytes
  | 0, _, bytes => bytes
  | fuel + 1, temp, bytes => if temp > 0 then lengthLoop fuel (temp / 256) (UInt8.ofNat temp :: bytes) else bytes

def encodeLength (length : Nat) (offset : UInt8) : Bytes :=
  if length < 56 then [UInt8.ofNat (length + offset.toNat)]
  else
    let lengthBytes := lengthLoop 8 length []
    UInt8.ofNat (lengthBytes.length + offset.toNat + 55) :: lengthBytes

def encodeString (input : Bytes) : Bytes :=
  if input = [] then [0x80]
  else if input.length = 1 ∧ input.headD 0 < 0x80 then input
  else encodeLength input.length 0x80 ++ input

def encodeList (items : List Bytes) : Bytes :=
  let payload := items.flatMap encodeString
  encodeLength payload.length 0xc0 ++ payload

/-- `uint256beToBytes`: the significant bytes. -/
def uint256beToBytes (val : Word) : Bytes :=
  if val = 0 then [] else val.store.drop (32 - Handler.countSignificantBytes val)

/-- What `computeCreateAddress` hashes. -/
def createAddressInput (sender : Vector UInt8 20) (senderNonce : BitVec 64) : Bytes :=
  encodeList [sender.toList, uint256beToBytes (senderNonce.setWidth 256)]

/-! ## The canonical encoding -/

/-- The big-endian bytes of a number, without leading zeros. -/
def bigEndian (n : Nat) : Bytes := (Nat.digits 256 n).reverse.map UInt8.ofNat

def canonicalHeader (offset length : Nat) : Bytes :=
  if length < 56 then [UInt8.ofNat (offset + length)]
  else UInt8.ofNat (offset + 55 + (bigEndian length).length) :: bigEndian length

/-- The canonical encoding of a string: a byte below 128 stands for itself. -/
def canonicalString (x : Bytes) : Bytes :=
  if ∃ b : UInt8, b.toNat < 128 ∧ x = [b] then x else canonicalHeader 128 x.length ++ x

def canonicalList (xs : List Bytes) : Bytes :=
  canonicalHeader 192 (xs.flatMap canonicalString).length ++ xs.flatMap canonicalString

theorem bigEndian_pos {n : Nat} (pos : 0 < n) : bigEndian n = bigEndian (n / 256) ++ [UInt8.ofNat n] := by
  have low : UInt8.ofNat (n % 256) = UInt8.ofNat n := UInt8.toNat_inj.mp (by simp)
  rw [bigEndian, Nat.digits_def' (by decide) pos, List.reverse_cons, List.map_append, List.map_singleton, low]
  rfl

theorem lengthLoop_eq (fuel : Nat) {n : Nat} (bytes : Bytes) (small : n < 256 ^ fuel) :
    lengthLoop fuel n bytes = bigEndian n ++ bytes := by
  induction fuel generalizing n bytes with
  | zero =>
    obtain rfl : n = 0 := by omega
    rfl
  | succ fuel ih =>
    rw [lengthLoop]
    split
    · next pos =>
      rw [ih _ (by rw [Nat.pow_succ] at small; omega), bigEndian_pos pos, List.append_assoc]
      rfl
    · next zero =>
      obtain rfl : n = 0 := by omega
      rfl

theorem length_bigEndian_le {n : Nat} (small : n < 2 ^ 64) : (bigEndian n).length ≤ 8 := by
  rw [bigEndian, List.length_map, List.length_reverse, Nat.digits_length_le_iff (by decide)]
  exact small

theorem bigEndian_inj {n m : Nat} (same : bigEndian n = bigEndian m) : n = m := by
  have back (n : Nat) : (bigEndian n).map UInt8.toNat = (Nat.digits 256 n).reverse := by
    rw [bigEndian, List.map_map]
    refine (List.map_congr_left fun d mem => ?_).trans (List.map_id _)
    exact UInt8.toNat_ofNat_of_lt (Nat.digits_lt_base (by decide) (List.mem_reverse.mp mem))
  have digits := congrArg (List.map UInt8.toNat) same
  rw [back, back] at digits
  exact Nat.digits_inj_iff.mp (List.reverse_injective digits)

theorem encodeLength_eq {n : Nat} (small : n < 2 ^ 64) (offset : UInt8) :
    encodeLength n offset = canonicalHeader offset.toNat n := by
  have bytes : lengthLoop 8 n [] = bigEndian n := (lengthLoop_eq 8 [] small).trans (List.append_nil _)
  have first : (bigEndian n).length + offset.toNat + 55 = offset.toNat + 55 + (bigEndian n).length := by omega
  simp only [encodeLength, canonicalHeader, bytes, first, Nat.add_comm n]

theorem encodeString_eq {x : Bytes} (small : x.length < 2 ^ 64) : encodeString x = canonicalString x := by
  have header : encodeLength x.length 0x80 = canonicalHeader 128 x.length := encodeLength_eq small 0x80
  rw [encodeString, canonicalString, header]
  rcases x with _ | ⟨b, _ | ⟨c, x⟩⟩
  · simp [canonicalHeader]
  · simp [UInt8.lt_iff_toNat_lt]
  · simp

/-! ## Reading an encoding -/

section Header

variable {o n m : Nat} (room : o + 63 < 256)

include room

theorem canonicalHeader_cons (small : n < 2 ^ 64) :
    ∃ first t, canonicalHeader o n = first :: t ∧ o ≤ first.toNat ∧ first.toNat ≤ o + 63 := by
  have length := length_bigEndian_le small
  rw [canonicalHeader]
  split <;> exact ⟨_, _, rfl, by rw [UInt8.toNat_ofNat_of_lt' (by show _ < 256; omega)]; omega⟩

theorem canonicalHeader_inj (hn : n < 2 ^ 64) (hm : m < 2 ^ 64) {r q : Bytes}
    (same : canonicalHeader o n ++ r = canonicalHeader o m ++ q) : n = m ∧ r = q := by
  have number {a b : Nat} (ha : a < 256) (hb : b < 256) (same : UInt8.ofNat a = UInt8.ofNat b) : a = b := by
    rw [← UInt8.toNat_ofNat_of_lt' ha, same, UInt8.toNat_ofNat_of_lt' hb]
  have some {k : Nat} (large : ¬ k < 56) : 0 < (bigEndian k).length := by
    rw [bigEndian_pos (by omega), List.length_append, List.length_singleton]
    omega
  have ln := length_bigEndian_le hn
  have lm := length_bigEndian_le hm
  rw [canonicalHeader, canonicalHeader] at same
  split_ifs at same with shortN shortM shortM <;> obtain ⟨first, rest⟩ := List.cons.inj same
  · exact ⟨by have := number (by omega) (by omega) first; omega, rest⟩
  · have := number (by omega) (by omega) first
    have := some shortM
    omega
  · have := number (by omega) (by omega) first
    have := some shortN
    omega
  · have := number (by omega) (by omega) first
    obtain ⟨bytes, rest⟩ := List.append_inj rest (by omega)
    exact ⟨bigEndian_inj bytes, rest⟩

end Header

theorem canonicalString_cons {x : Bytes} (small : x.length < 2 ^ 64) :
    ∃ first t, canonicalString x = first :: t ∧ first.toNat < 192 := by
  rw [canonicalString]
  split
  · next byte =>
    obtain ⟨b, low, rfl⟩ := byte
    exact ⟨b, [], rfl, by omega⟩
  · obtain ⟨first, t, eq, -, le⟩ := canonicalHeader_cons (o := 128) (by decide) small
    exact ⟨first, t ++ x, by rw [eq]; rfl, by omega⟩

theorem canonicalString_ne_nil (x : Bytes) : canonicalString x ≠ [] := by
  rw [canonicalString, canonicalHeader]
  split_ifs with byte
  · obtain ⟨b, -, rfl⟩ := byte
    exact List.cons_ne_nil _ _
  · simp
  · simp

theorem string_readable : Readable (fun x => x.length < 2 ^ 64) canonicalString := by
  intro x y r q hx hy same
  -- a byte that stands for itself is no header
  have apart {b : UInt8} {z t u : Bytes} (low : b.toNat < 128) (hz : z.length < 2 ^ 64)
      (same : b :: t = canonicalHeader 128 z.length ++ u) : False := by
    obtain ⟨first, t', eq, ge, -⟩ := canonicalHeader_cons (o := 128) (by decide) hz
    rw [eq] at same
    obtain ⟨rfl, -⟩ := List.cons.inj same
    omega
  rw [canonicalString, canonicalString] at same
  split_ifs at same with byteX byteY byteY
  · obtain ⟨b, -, rfl⟩ := byteX
    obtain ⟨c, -, rfl⟩ := byteY
    obtain ⟨rfl, rest⟩ := List.cons.inj same
    exact ⟨rfl, rest⟩
  · obtain ⟨b, low, rfl⟩ := byteX
    rw [List.append_assoc] at same
    exact (apart low hy same).elim
  · obtain ⟨b, low, rfl⟩ := byteY
    rw [List.append_assoc] at same
    exact (apart low hx same.symm).elim
  · rw [List.append_assoc, List.append_assoc] at same
    obtain ⟨length, rest⟩ := canonicalHeader_inj (by decide) hx hy same
    exact List.append_inj rest length

/-! ## Items -/

inductive Item where
  | string (x : Bytes)
  | list (xs : List Bytes)

def Item.encode : Item → Bytes
  | .string x => encodeString x
  | .list xs => encodeList xs

def Item.Sized : Item → Prop
  | .string x => x.length < 2 ^ 64
  | .list xs => (xs.flatMap encodeString).length < 2 ^ 64

def Item.canonical : Item → Bytes
  | .string x => canonicalString x
  | .list xs => canonicalList xs

theorem length_le_encodeString (x : Bytes) : x.length ≤ (encodeString x).length := by
  rw [encodeString]
  split_ifs with empty
  · simp [empty]
  · exact Nat.le_refl _
  · simp

theorem Item.Sized.string {xs : List Bytes} (sized : (Item.list xs).Sized) : ∀ x ∈ xs, x.length < 2 ^ 64 :=
  fun x mem => calc
    x.length ≤ (encodeString x).length := length_le_encodeString x
    _ ≤ (xs.flatMap encodeString).length := (List.sublist_flatten_of_mem (List.mem_map_of_mem mem)).length_le
    _ < 2 ^ 64 := sized

theorem Item.strings_eq {xs : List Bytes} (sized : (Item.list xs).Sized) :
    xs.flatMap encodeString = xs.flatMap canonicalString :=
  List.flatMap_congr fun x mem => encodeString_eq (sized.string x mem)

theorem Item.encode_eq {a : Item} (sized : a.Sized) : a.encode = a.canonical := by
  cases a with
  | string x => exact encodeString_eq sized
  | list xs =>
    have small : (xs.flatMap encodeString).length < 2 ^ 64 := sized
    rw [strings_eq sized] at small
    rw [encode, encodeList, canonical, canonicalList, strings_eq sized, encodeLength_eq small]
    rfl

theorem Item.readable : Readable Item.Sized Item.canonical := by
  intro a b r q ha hb same
  have small {xs : List Bytes} (sized : (Item.list xs).Sized) : (xs.flatMap canonicalString).length < 2 ^ 64 := by
    rw [← strings_eq sized]
    exact sized
  -- the first byte tells a string from a list
  have apart {x : Bytes} {xs : List Bytes} {t u : Bytes} (hx : x.length < 2 ^ 64) (hxs : (Item.list xs).Sized)
      (same : canonicalString x ++ t = canonicalList xs ++ u) : False := by
    obtain ⟨first, _, eq, lt⟩ := canonicalString_cons hx
    obtain ⟨first', _, eq', ge, -⟩ := canonicalHeader_cons (o := 192) (by decide) (small hxs)
    rw [canonicalList, eq, eq'] at same
    obtain ⟨rfl, -⟩ := List.cons.inj same
    omega
  cases a with
  | string x =>
    cases b with
    | string y =>
      obtain ⟨rfl, rest⟩ := string_readable ha hb same
      exact ⟨rfl, rest⟩
    | list ys => exact (apart ha hb same).elim
  | list xs =>
    cases b with
    | string y => exact (apart hb ha same.symm).elim
    | list ys =>
      simp only [Item.canonical, canonicalList, List.append_assoc] at same
      obtain ⟨length, rest⟩ := canonicalHeader_inj (by decide) (small ha) (small hb) same
      obtain ⟨payload, rest⟩ := List.append_inj rest length
      exact ⟨congrArg _ (string_readable.flatMap_inj canonicalString_ne_nil ha.string hb.string payload), rest⟩

theorem Item.eq_of_prefix {a b : Item} (ha : a.Sized) (hb : b.Sized) (front : a.encode <+: b.encode) : a = b := by
  rw [encode_eq ha, encode_eq hb] at front
  exact readable.eq_of_prefix ha hb front

theorem Item.encode_inj {a b : Item} (ha : a.Sized) (hb : b.Sized) (same : a.encode = b.encode) : a = b :=
  eq_of_prefix ha hb (same ▸ List.prefix_refl _)

/-! ## The address of a created contract -/

theorem countSignificantBytes_eq {w : Word} (nonzero : w ≠ 0) :
    Handler.countSignificantBytes w = (Nat.digits 256 w.toNat).length := by
  have bits (k : Nat) : 256 ^ k = 2 ^ (8 * k) := (Nat.pow_mul 2 8 k).symm
  have upper := BitVec.toNat_lt_two_pow_sub_clz (x := w)
  have lower := BitVec.two_pow_sub_clz_le_toNat_of_ne_zero (by decide) nonzero
  have clz : w.clz.toNat < 256 := by
    by_contra large
    rw [show 256 - w.clz.toNat = 0 by omega] at upper
    exact nonzero (BitVec.toNat_inj.mp (Nat.lt_one_iff.mp upper))
  rw [Handler.countSignificantBytes]
  refine Nat.le_antisymm (Nat.le_of_pred_lt ?_) ?_
  · rw [Nat.lt_digits_length_iff (by decide), bits]
    exact Nat.le_trans (Nat.pow_le_pow_right (by decide) (by rw [Nat.pred_eq_sub_one]; omega)) lower
  · rw [Nat.digits_length_le_iff (by decide), bits]
    exact Nat.lt_of_lt_of_le upper (Nat.pow_le_pow_right (by decide) (by omega))

theorem uint256beToBytes_eq (w : Word) : uint256beToBytes w = bigEndian w.toNat := by
  rw [uint256beToBytes]
  split
  · next zero => rw [zero]; rfl
  · next nonzero =>
    have most : (Nat.digits 256 w.toNat).length ≤ 32 := (Nat.digits_length_le_iff (by decide) _).mpr w.isLt
    rw [countSignificantBytes_eq nonzero, bigEndian]
    refine List.ext_getElem (by simp [Word.store]; omega) fun i hi hi' => ?_
    have digit := Nat.getD_digits w.toNat ((Nat.digits 256 w.toNat).length - 1 - i) (b := 256) (by decide)
    have inside : i < (Nat.digits 256 w.toNat).length := by simpa using hi'
    rw [List.getD_eq_getElem _ _ (by omega)] at digit
    simp only [Word.store, List.getElem_drop, List.getElem_map, List.getElem_range, List.getElem_reverse, digit]
    rw [show 31 - (32 - (Nat.digits 256 w.toNat).length + i) = (Nat.digits 256 w.toNat).length - 1 - i by omega]
    exact UInt8.toNat_inj.mp (by simp)

theorem length_canonicalHeader_le {o n : Nat} (small : n < 2 ^ 64) : (canonicalHeader o n).length ≤ 9 := by
  rw [canonicalHeader]
  split
  · exact (by decide : 1 ≤ 9)
  · exact Nat.succ_le_succ (length_bigEndian_le small)

theorem length_encodeString_le {x : Bytes} (small : x.length < 2 ^ 64) : (encodeString x).length ≤ 9 + x.length := by
  rw [encodeString_eq small, canonicalString]
  split
  · exact Nat.le_add_left _ _
  · rw [List.length_append]
    exact Nat.add_le_add_right (length_canonicalHeader_le small) _

theorem toNat_setWidth_nonce (nonce : BitVec 64) : (nonce.setWidth 256).toNat = nonce.toNat :=
  BitVec.toNat_setWidth_of_le (by decide)

theorem createAddressInput_sized (sender : Vector UInt8 20) (nonce : BitVec 64) :
    (Item.list [sender.toList, uint256beToBytes (nonce.setWidth 256)]).Sized := by
  have length := length_bigEndian_le nonce.isLt
  rw [← toNat_setWidth_nonce, ← uint256beToBytes_eq] at length
  have first := length_encodeString_le (x := sender.toList) (by simp)
  have second := length_encodeString_le (x := uint256beToBytes (nonce.setWidth 256)) (by omega)
  rw [Vector.length_toList] at first
  simp only [Item.Sized, List.flatMap_cons, List.flatMap_nil, List.length_append, List.length_nil]
  omega

theorem createAddressInput_inj {sender sender' : Vector UInt8 20} {nonce nonce' : BitVec 64}
    (same : createAddressInput sender nonce = createAddressInput sender' nonce') :
    sender = sender' ∧ nonce = nonce' := by
  have items := Item.encode_inj (createAddressInput_sized sender nonce) (createAddressInput_sized sender' nonce') same
  simp only [Item.list.injEq, List.cons.injEq, and_true, uint256beToBytes_eq, toNat_setWidth_nonce] at items
  exact ⟨Vector.toList_inj.mp items.1, BitVec.toNat_inj.mp (bigEndian_inj items.2)⟩

/-- The encodings are canonical, none is the front of another one, and different pairs of a sender and a nonce are
hashed differently. -/
theorem encodings_readable : (∀ a : Item, a.Sized → a.encode = a.canonical) ∧
      (∀ a b : Item, a.Sized → b.Sized → a ≠ b → a.encode ≠ b.encode ∧ ¬ a.encode <+: b.encode) ∧
      ∀ sender sender' nonce nonce', (sender, nonce) ≠ (sender', nonce') →
        createAddressInput sender nonce ≠ createAddressInput sender' nonce' := by
  refine ⟨fun _ => Item.encode_eq, fun a b ha hb different => ?_, fun _ _ _ _ different same => ?_⟩
  · exact ⟨fun same => different (Item.encode_inj ha hb same),
      fun front => different (Item.eq_of_prefix ha hb front)⟩
  · obtain ⟨rfl, rfl⟩ := createAddressInput_inj same
    exact different rfl

end Dtvm.Rlp
