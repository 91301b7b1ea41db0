import Dtvm.Jit.JumpTable
import Dtvm.Jit.Switch

/-!
# Jumps to a target that is known at run time

`EVMMirBuilder::handleJump`, `handleJumpI`, `implementIndirectJump` and `getOrCreateIndirectJumpBB`: the target's
upper limbs are tested, and its lowest limb is looked for among the jump destinations, by one switch if there are
few and else by a switch over a hash and then by the bucket. A bucket with one destination is compared with it in
64 bits, a larger one is a switch of its own.

Branches on a comparison (`BrIfInstruction`) are given by their meaning; switches are run as they are lowered
(`runSwitch`), which compares 32 bits. So a target below 2^64 whose lower half is a destination is taken for it,
unless it is alone in its bucket. For every other target the dispatch is right (`dispatch_exact_iff`).
-/

namespace Dtvm.Jit

/-! ## The hash table -/

def hashMultiplier : BitVec 64 := 0x9E3779B97F4A7C15

def minHashSize : Nat := 5

def maxHashSize : BitVec 64 := 1024

/-- `n |= n >> k`. -/
def orShift (n : BitVec 32) (k : Nat) : BitVec 32 := n ||| n >>> k

def nextPowerOfTwo (n : BitVec 32) : BitVec 64 :=
  let n := n - 1
  let n := orShift n 1
  let n := orShift n 2
  let n := orShift n 4
  let n := orShift n 8
  let n := orShift n 16
  (n + 1).setWidth 64

structure JumpTables where
  dests : List (Nat × Entry)
  hashMask : BitVec 64

/-- `HashMask` for a number of destinations; without a hash table it is zero. -/
def hashMask (count : Nat) : BitVec 64 :=
  if count > minHashSize then
    let size := nextPowerOfTwo (.ofNat 32 count)
    (if size.ult maxHashSize then size else maxHashSize) - 1
  else 0

/-- The tables of `createJumpTable`. -/
def createJumpTable (code : Bytes) (metering : Bool) : JumpTables :=
  ⟨jumpDestTable code metering, hashMask (jumpDestTable code metering).length⟩

namespace JumpTables

variable (tables : JumpTables)

def hash (target : BitVec 64) : BitVec 64 := target * hashMultiplier &&& tables.hashMask

/-- `JumpHashTable` and `JumpHashReverse` at an index. -/
def bucket (index : Nat) : List (Nat × Entry) :=
  tables.dests.filter fun d => (tables.hash (.ofNat 64 d.1)).toNat = index

def hashes : List Nat := tables.dests.map fun d => (tables.hash (.ofNat 64 d.1)).toNat

/-- `JumpHashTable.begin()->first`. -/
def minHash : Nat := tables.hashes.min?.getD 0

/-- `JumpHashTable.rbegin()->first`. -/
def maxHash : Nat := tables.hashes.max?.getD 0

end JumpTables

/-! ## The dispatch -/

inductive MBlock where
  /-- A registered block. -/
  | dest (entry : Entry)
  /-- The block that raises `EVMBadJumpDestination`. -/
  | bad
  /-- `CheckBB` of a bucket with one destination. -/
  | check (index : Nat)
  /-- `SubCaseBB` of a larger bucket. -/
  | sub (index : Nat)
deriving DecidableEq, Repr

def destCases (dests : List (Nat × Entry)) : List (Nat × MBlock) :=
  dests.map fun d => (d.1, .dest d.2)

namespace JumpTables

variable (tables : JumpTables)

def hashCase (index : Nat) : MBlock :=
  match tables.bucket index with
  | [] => .bad
  | [_] => .check index
  | _ => .sub index

def hashCases : List (Nat × MBlock) :=
  (List.range' tables.minHash (tables.maxHash - tables.minHash + 1)).map fun index =>
    (index, tables.hashCase index)

/-- The blocks that `getOrCreateIndirectJumpBB` makes for a bucket. -/
def enter (target : BitVec 64) : MBlock → Exit MBlock
  | .check index =>
    match tables.bucket index with
    | [] => .off
    | d :: _ => .to (.block (if target = .ofNat 64 d.1 then .dest d.2 else .bad))
  | .sub index => runSwitch (switchCases (destCases (tables.bucket index))) .bad target
  | b => .to (.block b)

/-- The block of `getOrCreateIndirectJumpBB`. -/
def indirectJump (target : BitVec 64) : Exit MBlock :=
  if tables.dests.length > minHashSize then
    match runSwitch (switchCases tables.hashCases) .bad (tables.hash target) with
    | .to (.block b) => tables.enter target b
    | exit => exit
  else runSwitch (switchCases (destCases tables.dests)) .bad target

def implementIndirectJump (target : BitVec 64) : Exit MBlock :=
  if tables.dests = [] then .to (.block .bad) else tables.indirectJump target

end JumpTables

/-- `extractU256Operand`: the limbs of a word. -/
def limb (w : Word) (i : Nat) : BitVec 64 := w.extractLsb' (64 * i) 64

/-- `handleJump` for a target that is not constant. -/
def handleJump (tables : JumpTables) (dest : Word) : Exit MBlock :=
  if limb dest 1 ||| limb dest 2 ||| limb dest 3 ≠ 0 then .to (.block .bad)
  else tables.implementIndirectJump (limb dest 0)

/-- `handleJumpI` for a target that is not constant; `none` falls through. -/
def handleJumpI (tables : JumpTables) (dest cond : Word) : Option (Exit MBlock) :=
  if limb cond 0 ||| limb cond 1 ||| limb cond 2 ||| limb cond 3 ≠ 0 then
    if tables.dests = [] then some (.to (.block .bad))
    else if limb dest 1 ||| limb dest 2 ||| limb dest 3 ≠ 0 then some (.to (.block .bad))
    else some (tables.implementIndirectJump (limb dest 0))
  else none

/-! ## The mask -/

theorem orShift_lt {n : BitVec 32} (lt : n.toNat < 2 ^ 31) (k : Nat) : (orShift n k).toNat < 2 ^ 31 := by
  rw [orShift, BitVec.toNat_or, BitVec.toNat_ushiftRight]
  exact Nat.or_lt_two_pow lt (Nat.lt_of_le_of_lt (Nat.shiftRight_le _ _) lt)

theorem nextPowerOfTwo_pos {n : Nat} (pos : 0 < n) (small : n ≤ 2 ^ 31) : 0 < (nextPowerOfTwo (.ofNat 32 n)).toNat := by
  have start : (BitVec.ofNat 32 n - 1).toNat < 2 ^ 31 := by
    have whole : (BitVec.ofNat 32 n).toNat = n := Nat.mod_eq_of_lt (by omega)
    rw [BitVec.toNat_sub, whole]
    show (2 ^ 32 - 1 + n) % 2 ^ 32 < 2 ^ 31
    omega
  have bits := orShift_lt (orShift_lt (orShift_lt (orShift_lt (orShift_lt start 1) 2) 4) 8) 16
  unfold nextPowerOfTwo
  rw [BitVec.toNat_setWidth, BitVec.toNat_add]
  show 0 < (BitVec.toNat (orShift _ 16) + 1) % 2 ^ 32 % 2 ^ 64
  omega

theorem hashMask_lt {count : Nat} (small : count ≤ 2 ^ 31) : (hashMask count).toNat < 2 ^ 31 := by
  unfold hashMask
  split
  · rename_i many
    have size := nextPowerOfTwo_pos (Nat.zero_lt_of_lt many) small
    simp only
    generalize nextPowerOfTwo _ = n at size ⊢
    split
    · rename_i less
      have below : n.toNat < 1024 := by simpa [BitVec.ult, maxHashSize] using less
      rw [BitVec.toNat_sub]
      show (2 ^ 64 - 1 + n.toNat) % 2 ^ 64 < 2 ^ 31
      omega
    · decide
  · decide

theorem length_le_of_sorted {table : List (Nat × Entry)} (sorted : Search.Sorted table) {n : Nat}
    (below : ∀ c ∈ table, c.1 < n) : table.length ≤ n := by
  have distinct : (table.map Prod.fst).Nodup :=
    List.pairwise_map.mpr (sorted.imp fun less => Nat.ne_of_lt less)
  have within : table.map Prod.fst ⊆ List.range n := by
    intro k mem
    obtain ⟨c, mem', rfl⟩ := List.mem_map.mp mem
    exact List.mem_range.mpr (below c mem')
  simpa using (List.subperm_of_subset distinct within).length_le

/-- What the dispatch rests on: destinations in order, small, and hashes that fit a switch. -/
structure JumpTables.Ok (tables : JumpTables) : Prop where
  sorted : Search.Sorted tables.dests
  offsets : ∀ d ∈ tables.dests, d.1 < 2 ^ 31
  mask : tables.hashMask.toNat < 2 ^ 31

theorem createJumpTable_ok {code : Bytes} (short : code.length ≤ 2 ^ 31) (metering : Bool) :
    (createJumpTable code metering).Ok := by
  have registers := jumpDestTable_registers code metering
  have below : ∀ d ∈ jumpDestTable code metering, d.1 < code.length := fun d mem =>
    ((registers.mem d.1).mp (List.mem_map_of_mem mem)).2
  have count := length_le_of_sorted registers.sorted below
  exact ⟨registers.sorted, fun d mem => Nat.lt_of_lt_of_le (below d mem) short,
    hashMask_lt (Nat.le_trans count short)⟩

/-- Where a target belongs: to the block registered for it, or to the bad-jump exit. -/
def registered (dests : List (Nat × Entry)) (pc : Nat) : Exit MBlock :=
  .to (.block (((dests.lookup pc).map .dest).getD .bad))

section Destinations

variable {dests : List (Nat × Entry)} {target : BitVec 64}

/-- **A switch over destinations** is right exactly for a target of 32 bits and for one whose lower
half is no destination. -/
theorem destSwitch_iff (sorted : Search.Sorted dests) (offsets : ∀ d ∈ dests, d.1 < 2 ^ 31) :
    runSwitch (switchCases (destCases dests)) .bad target = registered dests target.toNat ↔
      target.toNat < 2 ^ 32 ∨ dests.lookup (lowHalf target) = none := by
  have sorted' : Search.Sorted (destCases dests) := List.pairwise_map.mpr sorted
  have offsets' : ∀ c ∈ destCases dests, c.1 < 2 ^ 31 := List.forall_mem_map.mpr offsets
  have lookup : ∀ pc, (destCases dests).lookup pc = (dests.lookup pc).map .dest :=
    Search.lookup_map_value MBlock.dest dests
  constructor
  · intro right
    by_contra! wrong
    obtain ⟨wide, found⟩ := wrong
    obtain ⟨entry, found⟩ := Option.ne_none_iff_exists'.mp found
    have absent : dests.lookup target.toNat = none := by
      apply Search.lookup_eq_none
      intro d mem
      have := offsets d mem
      omega
    have goes := lowerSwitchStmt_wrong offsets' sorted' .bad
      (show (destCases dests).lookup (lowHalf target) = some (.dest entry) by rw [lookup, found]; rfl)
    rw [right, registered, absent] at goes
    rcases goes with goes | goes <;> cases goes
  · intro narrow
    rw [lowerSwitchStmt_exact offsets' sorted' .bad, lookup]
    · rfl
    · exact narrow.imp_right fun none => by rw [lookup, none]; rfl

end Destinations

/-! ## The hash -/

namespace JumpTables.Ok

variable {tables : JumpTables}

variable (ok : tables.Ok)

include ok

theorem hash_lt (target : BitVec 64) : (tables.hash target).toNat < 2 ^ 31 := by
  rw [JumpTables.hash, BitVec.toNat_and]
  exact Nat.lt_of_le_of_lt Nat.and_le_right ok.mask

theorem hash_lowHalf (target : BitVec 64) : tables.hash (.ofNat 64 (lowHalf target)) = tables.hash target := by
  have mask : tables.hashMask.toNat < 2 ^ 32 := Nat.lt_trans ok.mask (by decide)
  have masked : ∀ a : Nat, a &&& tables.hashMask.toNat = a % 2 ^ 32 &&& tables.hashMask.toNat := by
    intro a
    have small : a &&& tables.hashMask.toNat < 2 ^ 32 := Nat.lt_of_le_of_lt Nat.and_le_right mask
    calc a &&& tables.hashMask.toNat
        = (a &&& tables.hashMask.toNat) % 2 ^ 32 := (Nat.mod_eq_of_lt small).symm
      _ = a % 2 ^ 32 &&& tables.hashMask.toNat % 2 ^ 32 := Nat.and_mod_two_pow
      _ = a % 2 ^ 32 &&& tables.hashMask.toNat := by rw [Nat.mod_eq_of_lt mask]
  have low : ∀ x : BitVec 64, (x * hashMultiplier).toNat % 2 ^ 32 =
      x.toNat % 2 ^ 32 * hashMultiplier.toNat % 2 ^ 32 := by
    intro x
    rw [BitVec.toNat_mul, Nat.mod_mod_of_dvd _ (by decide), Nat.mod_mul_mod]
  have whole : (BitVec.ofNat 64 (lowHalf target)).toNat % 2 ^ 32 = target.toNat % 2 ^ 32 := by
    show lowHalf target % 2 ^ 64 % 2 ^ 32 = _
    rw [lowHalf]
    omega
  apply BitVec.eq_of_toNat_eq
  rw [hash, hash, BitVec.toNat_and, BitVec.toNat_and, masked, masked (target * _).toNat, low, low, whole]

omit ok in
theorem bucket_lookup (index : Nat) {pc : Nat} (own : (tables.hash (.ofNat 64 pc)).toNat = index) :
    (tables.bucket index).lookup pc = tables.dests.lookup pc :=
  Search.lookup_bucket (fun pc => (tables.hash (.ofNat 64 pc)).toNat) tables.dests own

omit ok in
theorem hash_le_maxHash {d : Nat × Entry} (mem : d ∈ tables.dests) {index : Nat}
    (own : (tables.hash (.ofNat 64 d.1)).toNat = index) : tables.minHash ≤ index ∧ index ≤ tables.maxHash := by
  have used : index ∈ tables.hashes := List.mem_map.mpr ⟨d, mem, own⟩
  obtain ⟨low, low_eq⟩ := Option.isSome_iff_exists.mp (List.isSome_min?_of_mem used)
  obtain ⟨high, high_eq⟩ := Option.isSome_iff_exists.mp (List.isSome_max?_of_mem used)
  rw [JumpTables.minHash, JumpTables.maxHash, low_eq, high_eq]
  exact ⟨(List.min?_eq_some_iff.mp low_eq).2 _ used, (List.max?_eq_some_iff.mp high_eq).2 _ used⟩

theorem maxHash_lt : tables.maxHash < 2 ^ 31 := by
  rw [JumpTables.maxHash]
  cases high_eq : tables.hashes.max? with
  | none =>
    rw [Option.getD_none]
    omega
  | some high =>
    obtain ⟨d, -, rfl⟩ := List.mem_map.mp (List.max?_eq_some_iff.mp high_eq).1
    rw [Option.getD_some]
    exact ok.hash_lt _

omit ok in
theorem hashCase_of_outside {index : Nat} (outside : ¬(tables.minHash ≤ index ∧ index ≤ tables.maxHash)) :
    tables.hashCase index = .bad := by
  have empty : tables.bucket index = [] := by
    rw [JumpTables.bucket, List.filter_eq_nil_iff]
    intro d mem own
    exact outside (hash_le_maxHash mem (by simpa using own))
  rw [JumpTables.hashCase, empty]

/-- **The first switch** goes to the block of the target's bucket. -/
theorem indirectJump_hashed (many : tables.dests.length > minHashSize) (target : BitVec 64) :
    tables.indirectJump target = tables.enter target (tables.hashCase (tables.hash target).toNat) := by
  have small := ok.hash_lt target
  have last := ok.maxHash_lt
  have lookup := Search.lookup_map_self tables.hashCase
    (List.range' tables.minHash (tables.maxHash - tables.minHash + 1)) (tables.hash target).toNat
  have sorted : Search.Sorted tables.hashCases := List.pairwise_map.mpr List.pairwise_lt_range'
  -- There are destinations, so the first index in use is not after the last one.
  have order : tables.minHash ≤ tables.maxHash := by
    obtain ⟨d, mem⟩ := List.exists_mem_of_length_pos (Nat.zero_lt_of_lt many)
    obtain ⟨low, high⟩ := hash_le_maxHash mem rfl
    exact Nat.le_trans low high
  have offsets : ∀ c ∈ tables.hashCases, c.1 < 2 ^ 31 := by
    intro c mem
    obtain ⟨index, mem', rfl⟩ := List.mem_map.mp mem
    have := (List.mem_range'_1.mp mem').2
    show index < 2 ^ 31
    omega
  have goes := lowerSwitchStmt_exact offsets sorted .bad (v := tables.hash target) (.inl (by omega))
  have found : (tables.hashCases.lookup (tables.hash target).toNat).getD .bad =
      tables.hashCase (tables.hash target).toNat := by
    rw [JumpTables.hashCases, lookup]
    split
    · rfl
    · rename_i absent
      apply (hashCase_of_outside _).symm
      rintro ⟨low, high⟩
      exact absent (List.mem_range'_1.mpr ⟨low, by omega⟩)
  rw [JumpTables.indirectJump, if_pos many, goes, found]

/-- **The bucket** is right for every target if it has one destination, and else as a switch is. -/
theorem enter_iff (target : BitVec 64) : tables.enter target (tables.hashCase (tables.hash target).toNat) =
        registered tables.dests target.toNat ↔ target.toNat < 2 ^ 32 ∨ tables.dests.lookup (lowHalf target) = none ∨
        (tables.bucket (tables.hash target).toNat).length = 1 := by
  have atTarget := bucket_lookup (tables.hash target).toNat
    (show (tables.hash (.ofNat 64 target.toNat)).toNat = _ by rw [BitVec.ofNat_toNat, BitVec.setWidth_eq])
  have atLow := bucket_lookup (tables.hash target).toNat
    (congrArg BitVec.toNat (ok.hash_lowHalf target))
  have within : ∀ d ∈ tables.bucket (tables.hash target).toNat, d ∈ tables.dests := fun d mem =>
    (List.mem_filter.mp mem).1
  have sorted : Search.Sorted (tables.bucket (tables.hash target).toNat) := ok.sorted.filter _
  rw [registered, ← atTarget, ← atLow, JumpTables.hashCase]
  generalize (tables.hash target).toNat = index at *
  cases shape : tables.bucket index with
  | nil => exact ⟨fun _ => .inr (.inl rfl), fun _ => rfl⟩
  | cons d rest =>
    cases rest with
    | nil =>
      -- The comparison is of 64 bits, and the destination has fewer.
      have offset := ok.offsets d (within d (by rw [shape]; exact List.mem_singleton_self d))
      have same : target = .ofNat 64 d.1 ↔ target.toNat = d.1 := by
        rw [← BitVec.toNat_inj, BitVec.toNat_ofNat, Nat.mod_eq_of_lt (by omega)]
      refine ⟨fun _ => .inr (.inr rfl), fun _ => ?_⟩
      show tables.enter target (.check index) = _
      rw [JumpTables.enter, shape, Search.lookup_cons_ite]
      by_cases here : target.toNat = d.1
      · rw [if_pos here]
        simp only [if_pos (same.mpr here)]
        rfl
      · rw [if_neg here]
        simp only [if_neg fun eq => here (same.mp eq)]
        rfl
    | cons d' rest =>
      rw [← shape]
      have iff := @destSwitch_iff _ target sorted fun d mem => ok.offsets d (within d mem)
      have several : (tables.bucket index).length ≠ 1 := by rw [shape]; exact fun h => by cases h
      rw [shape]
      show tables.enter target (.sub index) = _ ↔ _
      rw [JumpTables.enter, ← shape]
      simpa [several, registered] using iff

/-- **The dispatch of a 64-bit target.** -/
theorem implementIndirectJump_iff (target : BitVec 64) :
    tables.implementIndirectJump target = registered tables.dests target.toNat ↔
      target.toNat < 2 ^ 32 ∨ tables.dests.lookup (lowHalf target) = none ∨ (tables.dests.length > minHashSize ∧
          (tables.bucket (tables.hash target).toNat).length = 1) := by
  rw [JumpTables.implementIndirectJump]
  by_cases none : tables.dests = []
  · rw [if_pos none, none]
    exact ⟨fun _ => .inr (.inl rfl), fun _ => rfl⟩
  · rw [if_neg none]
    by_cases many : tables.dests.length > minHashSize
    · rw [ok.indirectJump_hashed many, ok.enter_iff]
      simp only [many, true_and]
    · rw [JumpTables.indirectJump, if_neg many, destSwitch_iff ok.sorted ok.offsets]
      simp only [many, false_and, or_false]

end JumpTables.Ok

/-! ## All targets -/

theorem toNat_limb (w : Word) (i : Nat) : (limb w i).toNat = w.toNat / 2 ^ (64 * i) % 2 ^ 64 := by
  rw [limb, BitVec.extractLsb'_toNat, Nat.shiftRight_eq_div_pow]

theorem limb_eq_zero (w : Word) (i : Nat) : limb w i = 0 ↔ w.toNat / 2 ^ (64 * i) % 2 ^ 64 = 0 := by
  rw [← toNat_limb, ← BitVec.toNat_inj]
  rfl

theorem or_eq_zero {x y : BitVec 64} : x ||| y = 0 ↔ x = 0 ∧ y = 0 := BitVec.or_eq_zero_iff

theorem upperLimbs_eq_zero (w : Word) : limb w 1 ||| limb w 2 ||| limb w 3 = 0 ↔ w.toNat < 2 ^ 64 := by
  have bound := w.isLt
  rw [or_eq_zero, or_eq_zero, limb_eq_zero, limb_eq_zero, limb_eq_zero]
  omega

theorem limbs_eq_zero (w : Word) : limb w 0 ||| limb w 1 ||| limb w 2 ||| limb w 3 = 0 ↔ w = 0 := by
  have bound := w.isLt
  rw [or_eq_zero, or_eq_zero, or_eq_zero, limb_eq_zero, limb_eq_zero, limb_eq_zero, limb_eq_zero, ← BitVec.toNat_inj]
  show _ ↔ w.toNat = 0
  omega

theorem isSome_lookup_iff (code : Bytes) (metering : Bool) (pc : Nat) :
    ((jumpDestTable code metering).lookup pc).isSome ↔ IsJumpDest code pc := by
  rw [← mem_jumpDestTable_iff code metering, Option.isSome_iff_ne_none, Ne, List.lookup_eq_none_iff]
  simp

/-- **The dispatch is exact** up to the lower half of a target of more than 32 bits. It is wrong for
such a target, below 2^64, if the lower half is a destination, unless a hash table is used and that
destination is the only one with its hash. A taken `JUMPI` is dispatched as a `JUMP`. -/
theorem dispatch_exact_iff {code : Bytes} (short : code.length ≤ 2 ^ 31) (metering : Bool) (t : Word) :
    (∀ pc, ((createJumpTable code metering).dests.lookup pc).isSome ↔ IsJumpDest code pc) ∧
    (∀ cond, cond ≠ 0 → handleJumpI (createJumpTable code metering) t cond =
      some (handleJump (createJumpTable code metering) t)) ∧ (handleJump (createJumpTable code metering) t =
        registered (createJumpTable code metering).dests t.toNat ↔
      2 ^ 64 ≤ t.toNat ∨ t.toNat < 2 ^ 32 ∨ ¬IsJumpDest code (t.toNat % 2 ^ 32) ∨
        ((createJumpTable code metering).dests.length > minHashSize ∧ ((createJumpTable code metering).bucket
            ((createJumpTable code metering).hash (limb t 0)).toNat).length = 1)) := by
  have ok := createJumpTable_ok short metering
  have registers : ∀ pc, ((createJumpTable code metering).dests.lookup pc).isSome ↔
      IsJumpDest code pc := isSome_lookup_iff code metering
  refine ⟨registers, ?_, ?_⟩
  · intro cond taken
    rw [handleJumpI, if_pos fun zero => taken ((limbs_eq_zero cond).mp zero), handleJump]
    by_cases none : (createJumpTable code metering).dests = []
    · simp [none, JumpTables.implementIndirectJump]
    · rw [if_neg none]
      split
      · rfl
      · rfl
  · rw [handleJump]
    by_cases wide : t.toNat < 2 ^ 64
    · have low : (limb t 0).toNat = t.toNat := by
        rw [toNat_limb, Nat.mul_zero, Nat.pow_zero, Nat.div_one, Nat.mod_eq_of_lt wide]
      have half : lowHalf (limb t 0) = t.toNat % 2 ^ 32 := by rw [lowHalf, low]
      rw [if_neg (not_not.mpr ((upperLimbs_eq_zero t).mpr wide)), ← low,
        ok.implementIndirectJump_iff, half, low, ← registers, Option.not_isSome_iff_eq_none]
      exact (or_iff_right (Nat.not_le.mpr wide)).symm
    · rw [if_pos fun zero => wide ((upperLimbs_eq_zero t).mp zero)]
      have absent : (createJumpTable code metering).dests.lookup t.toNat = none := by
        apply Search.lookup_eq_none
        intro d mem
        have := ok.offsets d mem
        omega
      rw [registered, absent]
      exact ⟨fun _ => .inl (Nat.not_lt.mp wide), fun _ => rfl⟩

/-- A target of 32 bits in a code of one `JUMPDEST` and a `STOP`. -/
theorem dispatch_exact_jumpdest : handleJump (createJumpTable [0x5b, 0x00] true) 0 =
      registered (createJumpTable [0x5b, 0x00] true).dests 0 :=
  (dispatch_exact_iff (by decide) true 0).2.2.mpr (.inr (.inl (by decide)))

/-- The target 2^32 is taken for the `JUMPDEST` at 0. -/
theorem dispatch_takes_lower_half : ¬IsJumpDest [0x5b, 0x00] (2 ^ 32) ∧
    handleJump (createJumpTable [0x5b, 0x00] true) (BitVec.ofNat 256 (2 ^ 32)) = .to (.block (.dest (.body 0))) ∧
    registered (createJumpTable [0x5b, 0x00] true).dests (2 ^ 32) = .to (.block .bad) := by
  refine ⟨?_, by decide, by decide⟩
  rintro ⟨-, inside, -⟩
  exact absurd inside (by decide)

end Dtvm.Jit
