import Dtvm.Effect.Contract
import Dtvm.Evm.Interpreter
import Dtvm.Evm.Memory

/-!
# The memory along a run

Every opcode that works on the memory asks for it first (`checkMemoryExpandAndChargeGas`) and then reads or
writes bytes of it, with shortcuts of its own for an empty region. A **ledger** beside the machine keeps what
the memory has cost and how large it has been. Every operation of a run is looked at in the state that it is
performed in: where the loop looks at the program counter the memory is settled with the ledger
(`Boundary`), and bytes that are read or written lie inside the memory (`Inside`).
-/

namespace Dtvm

open Effect Program Code

/-! ## The ledger -/

/-- What has been paid for memory, the largest size that it has had, and whether the size has just been
looked at. -/
structure Ledger where
  paid : Nat := 0
  high : Nat := 0
  sized : Bool := false
deriving DecidableEq, Repr

/-- What an operation on a machine adds. `expandMemoryAndChargeGas` looks at the size and charges next, and
no other charge follows a look at the size: it is a charge for memory. -/
def Ledger.note (o : FrameOp) (m : Machine) (l : Ledger) : Ledger where
  paid := match o with
    | .charge n => if l.sized ∧ n ≤ m.gas then l.paid + n else l.paid
    | _ => l.paid
  high := max l.high m.memory.length
  sized := match o with
    | .memorySize => true
    | _ => false

abbrev Watched := Machine × Ledger

def watch (host : Host) : Program.Handler frameSig Watched Halt := fun o v =>
  ((Machine.handle host o v.1).1, (Machine.handle host o v.1).2, v.2.note o v.1)

theorem run_watch {α : Type} (host : Host) (p : Code α) (v : Watched) :
    (p.run (watch host) v).1 = (p.run (Machine.handle host) v.1).1 ∧
      (p.run (watch host) v).2.1 = (p.run (Machine.handle host) v.1).2 := by
  induction p generalizing v with
  | done a => exact ⟨rfl, rfl⟩
  | step o next ih =>
    simp only [run, watch]
    rcases Machine.handle host o v.1 with ⟨e | a, m'⟩
    · exact ⟨rfl, rfl⟩
    · exact ih a _

/-- Between opcodes: the memory is of whole words within the limit, no smaller than before, and paid for. -/
structure Boundary (v : Watched) : Prop where
  whole : v.1.memory.length % 32 = 0
  room : v.1.memory.length ≤ roundUp maxRequiredMemorySize
  high : v.2.high ≤ v.1.memory.length
  paid : v.2.paid = memoryCost (v.1.memory.length / 32)

/-- Where an operation looks at the program counter there is a boundary, and what it reads or writes is
inside the memory. -/
def Inside : FrameOp → Watched → Prop
  | .pc, v => Boundary v
  | .memoryRead offset size, v => size ≠ 0 → offset + size ≤ v.1.memory.length
  | .memoryWrite offset bytes, v => bytes ≠ [] → offset + bytes.length ≤ v.1.memory.length
  | _, _ => True

/-! ## Programs that stay inside -/

/-- A boundary with memory for a size, where no charge for memory is expected. -/
structure Settled (reach : Nat) (v : Watched) : Prop extends Boundary v where
  unsized : v.2.sized = false
  reach : reach ≤ v.1.memory.length

variable {reach : Nat} {v : Watched}

theorem Settled.mono {reach' : Nat} (h : Settled reach v) (le : reach' ≤ reach) :
    Settled reach' v := { h with reach := Nat.le_trans le h.reach }

theorem Settled.reach_le (h : Settled reach v) :
    reach ≤ maxRequiredMemorySize := Nat.le_trans h.reach (Nat.le_trans h.room (by decide))

/-- The program stays inside, and settles the memory again, if there is memory for a size at its start. -/
class StaysInside (reach : Nat) {α : Type} (p : Code α) : Prop where
  obeys : ∀ {host : Host} {v : Watched}, Settled reach v →
    Obeys (watch host) Inside (fun _ => Settled reach) (fun _ _ => True) p v

@[reducible] def Plain : FrameOp → Prop
  | .memorySize | .memoryResize _ | .memoryRead _ _ | .memoryWrite _ _ => False
  | _ => True

theorem Plain.memory {o : FrameOp} (plain : Plain o) (host : Host) (m : Machine) :
    (Machine.handle host o m).2.memory = m.memory := by
  cases o with
  | memorySize | memoryResize | memoryRead | memoryWrite => exact plain.elim
  | need | pop | room | push | charge | dup | swap =>
    simp only [Machine.handle]
    split <;> rfl
  | _ => rfl

theorem Plain.settled {o : FrameOp} (plain : Plain o) (host : Host)
    (h : Settled reach v) : Settled reach (watch host o v).2 := by
  have memory : (watch host o v).2.1.memory = v.1.memory := plain.memory host v.1
  have paid : (watch host o v).2.2.paid = v.2.paid := by
    cases o with
    | charge n => exact if_neg fun sized => absurd sized.1 (by rw [h.unsized]; decide)
    | _ => rfl
  have unsized : (watch host o v).2.2.sized = false := by
    cases o with
    | memorySize => exact plain.elim
    | _ => rfl
  have high : (watch host o v).2.2.high = max v.2.high v.1.memory.length := rfl
  constructor
  · constructor
    · rw [memory]
      exact h.whole
    · rw [memory]
      exact h.room
    · rw [memory, high]
      exact Nat.max_le.mpr ⟨h.high, Nat.le_refl _⟩
    · rw [memory, paid]
      exact h.paid
  · exact unsized
  · rw [memory]
    exact h.reach

theorem Plain.inside {o : FrameOp} (plain : Plain o) (h : Settled reach v) : Inside o v := by
  cases o with
  | memoryRead | memoryWrite => exact plain.elim
  | pc => exact h.toBoundary
  | _ => trivial

namespace StaysInside

variable {reach : Nat} {α β : Type}

theorem of_within {p : Code α} (h : Within Plain p) : StaysInside reach p where
  obeys settled := Obeys.of_within h settled (fun _ _ plain => plain.inside)
    (fun _ _ plain => plain.settled _) (fun _ _ _ _ _ _ _ => trivial)

theorem bind {p : Code α} {f : α → Code β} (hp : StaysInside reach p)
    (hf : ∀ a, StaysInside reach (f a)) : StaysInside reach (p >>= f) where
  obeys settled := (hp.obeys settled).bind fun a _ settled => (hf a).obeys settled

theorem after {p : Code α} {f : α → Code β} [hp : StaysInside reach p] (hf : ∀ a, StaysInside reach (f a)) :
    StaysInside reach (p >>= f) := hp.bind hf

instance (p : Code α) (f : α → Code β) [StaysInside reach p] [hf : ∀ a, StaysInside reach (f a)] :
    StaysInside reach (p >>= f) := after hf

instance (p : Code α) [hp : Within Plain p] : StaysInside reach p := of_within hp

instance (c : Prop) [Decidable c] (p q : Code α) [hp : StaysInside reach p] [hq : StaysInside reach q] :
    StaysInside reach (if c then p else q) := by
  split
  · exact hp
  · exact hq

instance (c : Prop) [Decidable c] (p : Code Unit) [hp : StaysInside reach p] :
    StaysInside reach (Code.when c p) := by
  unfold Code.when
  infer_instance

/-! ## Reading, writing and growing -/

theorem memoryRead {offset size : Nat} (inside : reach ≤ maxRequiredMemorySize → size ≠ 0 → offset + size ≤ reach) :
    StaysInside reach (Code.memoryRead offset size) where
  obeys {host v} settled := by
    have fits : size ≠ 0 → offset + size ≤ v.1.memory.length := fun some =>
      Nat.le_trans (inside settled.reach_le some) settled.reach
    exact ⟨fits, { settled with
      high := Nat.max_le.mpr ⟨settled.high, Nat.le_refl _⟩
      unsized := rfl }⟩

theorem memoryWrite {offset size : Nat} {bytes : Bytes} (length : bytes.length ≤ size)
    (inside : reach ≤ maxRequiredMemorySize → size ≠ 0 → offset + size ≤ reach) :
    StaysInside reach (Code.memoryWrite offset bytes) where
  obeys {host v} settled := by
    have fits : bytes ≠ [] → offset + bytes.length ≤ v.1.memory.length := by
      intro some
      have pos := List.length_pos_iff.mpr some
      have reaches := inside settled.reach_le (by omega)
      have memory := settled.reach
      omega
    have same : (overwrite v.1.memory offset bytes).length = v.1.memory.length := by
      by_cases none : bytes = []
      · simp [none, overwrite]
      · exact length_overwrite (fits none)
    refine ⟨fits, ⟨⟨?_, ?_, ?_, ?_⟩, rfl, ?_⟩⟩
    · exact (congrArg (· % 32) same).trans settled.whole
    · exact same.le.trans settled.room
    · exact (Nat.max_le.mpr ⟨settled.high, Nat.le_refl _⟩).trans same.ge
    · exact settled.paid.trans (congrArg (fun n => memoryCost (n / 32)) same.symm)
    · exact settled.reach.trans same.ge

theorem memoryMove {src dest size : Nat} (inside : reach ≤ maxRequiredMemorySize → size ≠ 0 → src + size ≤ reach)
    (inside' : reach ≤ maxRequiredMemorySize → size ≠ 0 → dest + size ≤ reach) :
    StaysInside reach (do
      let bytes ← Code.memoryRead src size
      Code.memoryWrite dest bytes) where
  obeys {host v} settled := by
    have read : StaysInside reach (Code.memoryRead src size) := memoryRead inside
    obtain ⟨fits, after⟩ := @StaysInside.obeys _ _ _ read host v settled
    exact ⟨fits, (memoryWrite (List.length_take_le _ _) inside').obeys after⟩

end StaysInside

theorem memoryCost_add_expansionCost {size required : Nat} (whole : size % 32 = 0) :
    memoryCost (size / 32) + calculateMemoryExpansionCost size (roundUp required) =
      memoryCost (max size (roundUp required) / 32) := by
  have words : (size + 31) / 32 = size / 32 := by omega
  have words' : (roundUp required + 31) / 32 = roundUp required / 32 := by
    unfold roundUp
    omega
  rw [calculateMemoryExpansionCost, words, words']
  by_cases fits : roundUp required ≤ size
  · rw [if_pos fits, Nat.max_eq_left fits, Nat.add_zero]
  · have mono : memoryCost (size / 32) ≤ memoryCost (roundUp required / 32) :=
      memoryCost_mono (Nat.div_le_div_right (Nat.le_of_not_le fits))
    rw [if_neg fits, Nat.max_eq_right (Nat.le_of_not_le fits)]
    omega

variable {reach : Nat} {v : Watched} {host : Host}

theorem Settled.grown {required : Nat} (h : Settled reach v)
    (small : required ≤ maxRequiredMemorySize) {m : Machine} {l : Ledger}
    (length : m.memory.length = max v.1.memory.length (roundUp required)) (high : l.high ≤ m.memory.length)
    (paid : l.paid = v.2.paid + calculateMemoryExpansionCost v.1.memory.length (roundUp required))
    (unsized : l.sized = false) : Settled (max reach required) (m, l) := by
  have room := h.room
  have limit := roundUp_le_max small
  have max := le_roundUp maxRequiredMemorySize
  have reaches := h.reach
  have next := le_roundUp required
  constructor
  · constructor
    · show m.memory.length % 32 = 0
      rw [length]
      have whole := h.whole
      have whole' : roundUp required % 32 = 0 := Nat.mul_mod_left _ _
      omega
    · show m.memory.length ≤ _
      omega
    · exact high
    · show l.paid = memoryCost (m.memory.length / 32)
      rw [paid, h.paid, length, memoryCost_add_expansionCost h.whole]
  · exact unsized
  · show _ ≤ m.memory.length
    omega

theorem charge_obeys (cost : Nat) (v : Watched) : Obeys (watch host) Inside
      (fun _ v' => cost ≤ v.1.gas ∧ v' = ({ v.1 with gas := v.1.gas - cost }, v.2.note (.charge cost) v.1))
      (fun _ _ => True) (Code.charge cost) v := by
  refine Obeys.perform (S := frameSig) (o := .charge cost) trivial ?_ fun _ _ _ => trivial
  intro a v' eq
  rw [watch, Machine.handle] at eq
  by_cases short : v.1.gas < cost
  · rw [if_pos short] at eq
    cases congrArg Prod.fst eq
  · rw [if_neg short] at eq
    exact ⟨Nat.le_of_not_lt short, (congrArg Prod.snd eq).symm⟩

/-- **The one place where the memory grows.** -/
theorem expandMemory_obeys (h : Settled reach v) (required : Nat) :
    Obeys (watch host) Inside (fun _ => Settled (max reach required)) (fun _ _ => True)
      (Handler.expandMemoryAndChargeGas required) v := by
  obtain ⟨m, l⟩ := v
  rw [Handler.expandMemoryAndChargeGas]
  split
  · exact ⟨trivial, trivial⟩
  · next large =>
    have small : required ≤ maxRequiredMemorySize := Nat.le_of_not_gt large
    -- the size is looked at
    refine ⟨trivial, ?_⟩
    show Obeys _ _ _ _ (Code.charge (calculateMemoryExpansionCost m.memory.length (roundUp required)) >>=
      fun _ => Code.when (roundUp required > m.memory.length) (Code.memoryResize (roundUp required)))
      (m, l.note .memorySize m)
    have high : (l.note .memorySize m).high ≤ m.memory.length :=
      Nat.max_le.mpr ⟨h.high, Nat.le_refl _⟩
    refine (charge_obeys _ _).bind ?_
    rintro _ _ ⟨pays, rfl⟩
    have paid : ((l.note .memorySize m).note (.charge _) m).paid =
        l.paid + calculateMemoryExpansionCost m.memory.length (roundUp required) :=
      if_pos ⟨rfl, pays⟩
    have high' := Nat.max_le.mpr ⟨high, Nat.le_refl m.memory.length⟩
    rw [Code.when]
    split
    · next more =>
      have length : (m.memory ++ List.replicate (roundUp required - m.memory.length) 0).length =
          max m.memory.length (roundUp required) := by
        rw [List.length_append, List.length_replicate]
        omega
      refine ⟨trivial, h.grown small length ?_ paid rfl⟩
      exact (Nat.max_le.mpr ⟨high', Nat.le_refl _⟩).trans ((Nat.le_max_left _ _).trans length.ge)
    · next enough =>
      exact h.grown small (Nat.max_eq_left (Nat.le_of_not_gt enough)).symm high' paid rfl

theorem checkMemory64_obeys (h : Settled reach v) (offset : Word) (size : Nat) :
    Obeys (watch host) Inside (fun _ => Settled (max reach (offset.toNat + size))) (fun _ _ => True)
      (Handler.checkMemoryExpand64 offset size) v := by
  rw [Handler.checkMemoryExpand64]
  split
  · exact ⟨trivial, trivial⟩
  · split
    · exact ⟨trivial, trivial⟩
    · exact expandMemory_obeys h _

theorem checkMemory_obeys (h : Settled reach v) (offset size : Word) :
    Obeys (watch host) Inside (fun _ => Settled (max reach (demanded offset size))) (fun _ _ => True)
      (Handler.checkMemoryExpandAndChargeGas offset size) v := by
  rw [Handler.checkMemoryExpandAndChargeGas, demanded]
  split
  · rw [Nat.max_zero]
    exact h
  · split
    · exact ⟨trivial, trivial⟩
    · next small =>
      have low : size.low64 = size.toNat := Nat.mod_eq_of_lt (by omega)
      rw [← low]
      exact checkMemory64_obeys h offset size.low64

namespace StaysInside

variable {reach : Nat} {α : Type}

theorem demand {offset size : Word} {p : Unit → Code α} (h : StaysInside (max reach (demanded offset size)) (p ())) :
    StaysInside reach (Handler.checkMemoryExpandAndChargeGas offset size >>= p) where
  obeys settled := (checkMemory_obeys settled offset size).bind fun _ _ grown =>
    (h.obeys grown).imp (fun _ _ => id) (fun _ _ after => after.mono (Nat.le_max_left _ _)) fun _ _ => id

theorem demand64 {offset : Word} {size : Nat} {p : Unit → Code α}
    (h : StaysInside (max reach (offset.toNat + size)) (p ())) :
    StaysInside reach (Handler.checkMemoryExpand64 offset size >>= p) where
  obeys settled := (checkMemory64_obeys settled offset size).bind fun _ _ grown =>
    (h.obeys grown).imp (fun _ _ => id) (fun _ _ after => after.mono (Nat.le_max_left _ _)) fun _ _ => id

end StaysInside

/-! ## Regions -/

section Regions

variable {offset size : Word} {reach : Nat} (demands : demanded offset size ≤ reach)
  (limit : reach ≤ maxRequiredMemorySize)

include demands limit

theorem region_small (some : size ≠ 0) :
    offset.toNat + size.toNat ≤ reach ∧ offset.toNat < 2 ^ 64 ∧ size.toNat < 2 ^ 64 := by
  have most := maxRequired_lt
  rw [demanded, if_neg some] at demands
  omega

theorem region_inside (some : size.low64 ≠ 0) : Handler.regionOffset offset size.low64 + size.low64 ≤ reach := by
  have nonempty : size ≠ 0 := fun zero => some (zero ▸ rfl)
  obtain ⟨ends, near, small⟩ := region_small demands limit nonempty
  rw [Handler.regionOffset, if_neg some, Word.low64, Word.low64, Nat.mod_eq_of_lt near, Nat.mod_eq_of_lt small]
  exact ends

theorem copy_inside (some : uint256ToUint64 size ≠ 0) : uint256ToUint64 offset + uint256ToUint64 size ≤ reach := by
  have nonempty : size ≠ 0 := fun zero => some (zero ▸ rfl)
  obtain ⟨ends, near, small⟩ := region_small demands limit nonempty
  rw [uint256ToUint64, uint256ToUint64, if_pos near, if_pos small]
  exact ends

end Regions

theorem length_paddedSlice (data : Bytes) (offset size : Nat) :
    (Handler.paddedSlice data offset size).length = size := by
  simp only [Handler.paddedSlice, List.length_append, List.length_replicate, List.length_take]
  omega

/-! ## The handlers -/

namespace Plain

open Handler


variable {env : Env}

instance (op : CreateOp) (v s : Word) (input : Bytes) : Within Plain (sendCreate env op v s input) := by
  unfold sendCreate; infer_instance

end Plain

namespace StaysInside

open Handler

variable {reach : Nat} {env : Env}

instance : StaysInside reach (keccak256 env) := by
  unfold keccak256
  refine .after fun x => .demand (.after fun _ => .bind ?_ fun _ => inferInstance)
  exact memoryRead (region_inside (Nat.le_max_right _ _))

instance : StaysInside reach (callDataCopy env) := by
  unfold callDataCopy
  refine .after fun x => .demand (.after fun _ => ?_)
  exact memoryWrite (length_paddedSlice _ _ _).le (copy_inside (Nat.le_max_right _ _))

instance : StaysInside reach (codeCopy env) := by
  unfold codeCopy
  refine .after fun x => .demand (.after fun _ => ?_)
  exact memoryWrite (length_paddedSlice _ _ _).le (copy_inside (Nat.le_max_right _ _))

instance : StaysInside reach (extCodeCopy env) := by
  unfold extCodeCopy
  refine .after fun x => .demand (.after fun _ => .after fun _ => ?_)
  split
  · refine .after fun copied => ?_
    exact memoryWrite (length_paddedSlice _ _ _).le (copy_inside (Nat.le_max_right _ _))
  · infer_instance

instance : StaysInside reach returnDataCopy := by
  unfold returnDataCopy
  refine .after fun x => .after fun data => ?_
  split
  · infer_instance
  · refine .demand (.after fun _ => ?_)
    exact memoryWrite (List.length_take_le _ _) (copy_inside (Nat.le_max_right _ _))

theorem access_inside {offset : Word} {size r : Nat}
    (limit : max r (offset.toNat + size) ≤ maxRequiredMemorySize) (_ : size ≠ 0) :
    offset.low64 + size ≤ max r (offset.toNat + size) := by
  have most := maxRequired_lt
  rw [Word.low64, Nat.mod_eq_of_lt (by omega)]
  exact Nat.le_max_right _ _

instance : StaysInside reach mload := by
  unfold mload
  refine .after fun x => .demand64 (.bind ?_ fun _ => inferInstance)
  exact memoryRead access_inside

instance : StaysInside reach mstore := by
  unfold mstore
  refine .after fun x => .demand64 ?_
  exact memoryWrite (by simp [Word.store]) access_inside

instance : StaysInside reach mstore8 := by
  unfold mstore8
  refine .after fun x => .demand64 ?_
  exact memoryWrite (Nat.le_refl 1) access_inside

instance : StaysInside reach mcopy := by
  unfold mcopy
  refine .after fun x => ?_
  split
  · infer_instance
  · next some =>
    refine .demand (.after fun _ => ?_)
    have inside (offset : Word) (le : offset.toNat ≤ max (x 0).toNat (x 1).toNat)
        (limit : max reach (demanded (if (x 0).toNat < (x 1).toNat then x 1 else x 0) (x 2)) ≤
          maxRequiredMemorySize) (_ : uint256ToUint64 (x 2) ≠ 0) :
        offset.low64 + uint256ToUint64 (x 2) ≤
          max reach (demanded (if (x 0).toNat < (x 1).toNat then x 1 else x 0) (x 2)) := by
      obtain ⟨ends, near, small⟩ := region_small (Nat.le_max_right _ _) limit some
      have larger : offset.toNat ≤ (if (x 0).toNat < (x 1).toNat then x 1 else x 0).toNat := by
        split <;> omega
      rw [uint256ToUint64, if_pos small, Word.low64, Nat.mod_eq_of_lt (by omega)]
      omega
    exact memoryMove (inside _ (Nat.le_max_right _ _)) (inside _ (Nat.le_max_left _ _))

instance : StaysInside reach msize where
  obeys {host v} h := by
    have looked : Settled reach (v.1, { v.2.note .memorySize v.1 with sized := false }) :=
      { h with
        high := Nat.max_le.mpr ⟨h.high, Nat.le_refl _⟩
        unsized := rfl }
    refine ⟨trivial, Obeys.bind (p := Code.room) (show Obeys _ _ (fun _ => Settled reach) _ _ _ from
        Obeys.perform (S := frameSig) (o := .room) trivial ?_ fun _ _ _ => trivial)
      fun _ _ roomy => (inferInstance : StaysInside reach (Code.push _)).obeys roomy⟩
    intro a v' eq
    have roomy := Plain.settled (o := .room) trivial host looked
    obtain rfl : _ = v' := congrArg Prod.snd eq
    exact roomy

theorem createWith_inside (op : CreateOp) (value offset size salt : Word) :
    StaysInside reach (createWith env op value offset size salt) := by
  unfold createWith chargeInitCode
  refine .after fun _ => .after fun _ => .after fun _ => ?_
  split
  · infer_instance
  · rw [bind_assoc]
    refine .demand (.after fun _ => ?_)
    split
    · infer_instance
    · refine .after fun pays => ?_
      unfold Code.when
      split
      · exact .bind (memoryRead (region_inside (Nat.le_max_right _ _))) fun input => inferInstance
      · infer_instance

instance (op : CreateOp) : StaysInside reach (Handler.create env op) := by
  cases op with
  | create | create2 => exact .after fun x => createWith_inside _ _ _ _ _

theorem callWith_inside (op : CallOp) (requested : Word) (dest : Address)
    (value inputOffset inputSize outputOffset outputSize : Word) :
    StaysInside reach (callWith env op requested dest value inputOffset inputSize outputOffset outputSize) := by
  unfold callWith
  refine .after fun _ => .after fun _ => .after fun _ =>
    .after fun _ => .after fun codeAddress => ?_
  split
  · infer_instance
  · refine .demand (.demand (.after fun _ => .after fun capped =>
      .after fun sent => ?_))
    cases sent with
    | none => infer_instance
    | some callGas =>
      dsimp only
      split
      · infer_instance
      · have input := Nat.le_trans (Nat.le_max_right reach (demanded inputOffset inputSize))
          (Nat.le_max_left _ (demanded outputOffset outputSize))
        refine .bind (memoryRead (region_inside input)) fun bytes => ?_
        unfold sendCall
        refine .after fun r => .after fun _ => .after fun _ =>
          .bind ?_ fun _ => inferInstance
        exact memoryWrite (List.length_take_le _ _) (region_inside (Nat.le_max_right _ _))

instance (op : CallOp) : StaysInside reach (Handler.call env op) := by
  unfold Handler.call
  split
  · exact .after fun x => callWith_inside _ _ _ _ _ _ _ _
  · exact .after fun x => callWith_inside _ _ _ _ _ _ _ _

instance (numTopics : Nat) : StaysInside reach (Handler.log env numTopics) := by
  unfold Handler.log
  split
  · infer_instance
  · refine .after fun _ => .after fun x => .demand (.after fun _ =>
      .after fun topics => .bind ?_ fun data => inferInstance)
    exact memoryRead (region_inside (Nat.le_max_right _ _))

instance : StaysInside reach returnedData := by
  unfold returnedData
  refine .after fun x => .demand ?_
  exact memoryRead (region_inside (Nat.le_max_right _ _))

instance next_inside (p : Code Unit) [hp : StaysInside reach p] : StaysInside reach (Handler.next p) := by
  unfold Handler.next; infer_instance

end StaysInside

open Handler in
/-- **No opcode leaves the memory.** -/
theorem Opcode.exec_inside (reach : Nat) (env : Env) (maps : DecodeMaps) (o : Opcode) :
    StaysInside reach (o.exec env maps) := by
  cases o <;> simp only [exec, Handler.sstore, Handler.tstore, selfDestruct] <;> infer_instance

theorem Setup.carries_inside (s : Setup) (reach : Nat) : s.Carries fun p => StaysInside reach p where
  exec := Opcode.exec_inside reach s.env s.cache.maps
  bind := .bind

theorem settled_start (m : Machine) : Settled 0 ({ m with memory := [] }, {}) where
  whole := rfl
  room := Nat.zero_le _
  high := Nat.le_refl _
  paid := (by decide : 0 = memoryCost (0 / 32))
  unsized := rfl
  reach := Nat.le_refl _

/-- **The memory along a run of the interpreter**: for any code, tables, gas and host, and however long the
run. Wherever it looks at the program counter, and so between any two opcodes, the memory is of whole words
within the limit, no smaller than it has been, and has been paid for exactly. Whatever bytes it reads or
writes are inside the memory at that moment. The ledger that says so takes no part in the run. -/
theorem interpret_memory (host : Host) (s : Setup) (m : Machine) (turns : Nat) :
    (∀ v ∈ (s.interpret turns).visited (watch host) ({ m with memory := [] }, {}), Inside v.1 v.2) ∧
    ((s.interpret turns).run (watch host) ({ m with memory := [] }, {})).2.1 =
      ((s.interpret turns).run (Machine.handle host) { m with memory := [] }).2 :=
  ⟨(((s.carries_inside 0).interpret turns).obeys (settled_start m)).visited, (run_watch host _ _).2⟩

end Dtvm
