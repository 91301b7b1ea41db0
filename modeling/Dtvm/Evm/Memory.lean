import Dtvm.Evm.Calls

/-!
# The memory of a frame

The memory grows in whole words up to a limit, and what it costs depends on its size only: growing in two
steps costs what growing in one does (`Machine.grow_grow`). A region that is not empty needs memory up to
its end (`demanded`).
-/

namespace Dtvm

/-- The end of a region, which may be beyond any machine word. An empty region needs no memory. -/
def demanded (offset size : Word) : Nat := if size = 0 then 0 else offset.toNat + size.toNat

def roundUp (size : Nat) : Nat := (size + 31) / 32 * 32

theorem roundUp_words (size : Nat) : (roundUp size + 31) / 32 = (size + 31) / 32 := by
  unfold roundUp
  omega

theorem le_roundUp (size : Nat) : size ≤ roundUp size := by
  unfold roundUp
  omega

theorem roundUp_le_max {size : Nat} (h : size ≤ maxRequiredMemorySize) : roundUp size ≤ maxRequiredMemorySize := by
  have limit : maxRequiredMemorySize = 524288 * 32 := by decide
  unfold roundUp
  omega

theorem roundUp_le_of_whole {size required : Nat} (whole : size % 32 = 0) (h : required ≤ size) :
    roundUp required ≤ size := by
  unfold roundUp
  omega

theorem roundUp_max (a b : Nat) : roundUp (max a b) = max (roundUp a) (roundUp b) := by
  unfold roundUp
  rcases Nat.le_total a b with h | h
  · rw [Nat.max_eq_right h, Nat.max_eq_right]
    exact Nat.mul_le_mul_right 32 (Nat.div_le_div_right (Nat.add_le_add_right h 31))
  · rw [Nat.max_eq_left h, Nat.max_eq_left]
    exact Nat.mul_le_mul_right 32 (Nat.div_le_div_right (Nat.add_le_add_right h 31))

theorem memoryCost_mono {a b : Nat} (h : a ≤ b) : memoryCost a ≤ memoryCost b :=
  Nat.add_le_add (Nat.div_le_div_right (Nat.mul_le_mul h h)) (Nat.mul_le_mul_left 3 h)

theorem calculateMemoryExpansionCost_add (size a b : Nat) :
    calculateMemoryExpansionCost size a + calculateMemoryExpansionCost (max size a) b =
      calculateMemoryExpansionCost size (max a b) := by
  have mono : ∀ {x y : Nat}, x ≤ y → memoryCost ((x + 31) / 32) ≤ memoryCost ((y + 31) / 32) :=
    fun h => memoryCost_mono (Nat.div_le_div_right (Nat.add_le_add_right h 31))
  unfold calculateMemoryExpansionCost
  rcases Nat.lt_or_ge size a with h | h
  · rw [Nat.max_eq_right h.le, if_neg h.not_ge]
    rcases Nat.lt_or_ge a b with h' | h'
    · rw [Nat.max_eq_right h'.le, if_neg h'.not_ge, if_neg (h.trans h').not_ge]
      have first := mono h.le
      have second := mono h'.le
      omega
    · rw [if_pos h', Nat.add_zero, Nat.max_eq_left h', if_neg h.not_ge]
  · rw [Nat.max_eq_left h, if_pos h, Nat.zero_add]
    rcases Nat.le_total b size with h' | h'
    · rw [if_pos h', if_pos (Nat.max_le.mpr ⟨h, h'⟩)]
    · rw [Nat.max_eq_right (h.trans h')]

namespace Machine

def growCost (m : Machine) (required : Nat) : Nat :=
  calculateMemoryExpansionCost m.memory.length (roundUp required)

def grow (m : Machine) (required : Nat) : Machine :=
  { m with
    gas := m.gas - m.growCost required
    memory := m.memory ++ List.replicate (roundUp required - m.memory.length) 0 }

variable (m : Machine) (a b : Nat)

theorem length_grow : (m.grow a).memory.length = max m.memory.length (roundUp a) := by
  simp only [grow, List.length_append, List.length_replicate]
  omega

@[simp] theorem growCost_zero : m.growCost 0 = 0 := by simp [growCost, calculateMemoryExpansionCost, roundUp]

@[simp] theorem grow_zero : m.grow 0 = m := by simp [grow, roundUp]

theorem growCost_grow : m.growCost a + (m.grow a).growCost b = m.growCost (max a b) := by
  rw [growCost, growCost, growCost, length_grow, roundUp_max, calculateMemoryExpansionCost_add]

theorem grow_grow : (m.grow a).grow b = m.grow (max a b) := by
  have gas : m.gas - m.growCost a - (m.grow a).growCost b = m.gas - m.growCost (max a b) := by
    rw [Nat.sub_sub, growCost_grow]
  have memory : m.memory ++ List.replicate (roundUp a - m.memory.length) 0 ++
      List.replicate (roundUp b - (m.grow a).memory.length) 0 =
      m.memory ++ List.replicate (roundUp (max a b) - m.memory.length) 0 := by
    rw [List.append_assoc, List.replicate_append_replicate, length_grow, roundUp_max]
    congr 2
    omega
  calc (m.grow a).grow b
      = { m with
          gas := m.gas - m.growCost a - (m.grow a).growCost b
          memory := m.memory ++ List.replicate (roundUp a - m.memory.length) 0 ++
            List.replicate (roundUp b - (m.grow a).memory.length) 0 } := rfl
    _ = m.grow (max a b) := by rw [gas, memory]; rfl

end Machine

/-! ## The interpreter's checks -/

namespace Handler

open Effect Program Code

variable {host : Host}

theorem run_expandMemoryAndChargeGas (required : Nat) (m : Machine) :
    (expandMemoryAndChargeGas required).run (Machine.handle host) m =
      if required ≤ maxRequiredMemorySize ∧ m.growCost required ≤ m.gas then (.ok (), m.grow required)
      else (.error (.fail .outOfGas), m) := by
  rw [expandMemoryAndChargeGas]
  by_cases small : required ≤ maxRequiredMemorySize
  · rw [if_neg (Nat.not_lt.mpr small), run_bind_ok (run_memorySize host m)]
    show (charge (m.growCost required) >>= _).run _ _ = _
    by_cases pays : m.growCost required ≤ m.gas
    · have paid : (charge (m.growCost required)).run (Machine.handle host) m =
          (.ok (), { m with gas := m.gas - m.growCost required }) := by
        rw [run_charge, if_neg (Nat.not_lt.mpr pays)]
      rw [run_bind_ok paid, if_pos ⟨small, pays⟩, Code.when]
      split
      · rfl
      · next enough =>
        have none : roundUp required - m.memory.length = 0 := Nat.sub_eq_zero_of_le (Nat.le_of_not_gt enough)
        rw [Machine.grow, none, List.replicate_zero, List.append_nil]
        rfl
    · have stops : (charge (m.growCost required)).run (Machine.handle host) m =
          (.error (.fail .outOfGas), m) := by
        rw [run_charge, if_pos (Nat.lt_of_not_le pays)]
      rw [run_bind_error stops, if_neg fun h => pays h.2]
  · rw [if_pos (Nat.lt_of_not_le small), if_neg fun h => small h.1]
    rfl

theorem run_checkMemoryExpand64 (offset : Word) (size : Nat) (m : Machine) :
    (checkMemoryExpand64 offset size).run (Machine.handle host) m =
      if offset.toNat + size ≤ maxRequiredMemorySize ∧ m.growCost (offset.toNat + size) ≤ m.gas
        then (.ok (), m.grow (offset.toNat + size)) else (.error (.fail .outOfGas), m) := by
  have limit := maxRequired_lt
  rw [checkMemoryExpand64]
  split
  · rw [if_neg (by omega)]
    rfl
  · split
    · rw [if_neg (by omega)]
      rfl
    · exact run_expandMemoryAndChargeGas _ m

theorem run_checkMemoryExpandAndChargeGas (offset size : Word) (m : Machine) :
    (checkMemoryExpandAndChargeGas offset size).run (Machine.handle host) m =
      if demanded offset size ≤ maxRequiredMemorySize ∧ m.growCost (demanded offset size) ≤ m.gas
        then (.ok (), m.grow (demanded offset size)) else (.error (.fail .outOfGas), m) := by
  have limit := maxRequired_lt
  rw [checkMemoryExpandAndChargeGas, demanded]
  split
  · rw [if_pos ⟨Nat.zero_le _, m.growCost_zero.le.trans (Nat.zero_le _)⟩, m.grow_zero]
    rfl
  · split
    · rw [if_neg (by omega)]
      rfl
    · have low : size.low64 = size.toNat := Nat.mod_eq_of_lt (by omega)
      rw [low]
      exact run_checkMemoryExpand64 offset size.toNat m

end Handler

/-! ## Writing -/

theorem length_overwrite {buffer bytes : Bytes} {offset : Nat} (inside : offset + bytes.length ≤ buffer.length) :
    (overwrite buffer offset bytes).length = buffer.length := by
  simp only [overwrite, List.length_append, List.length_take, List.length_drop]
  omega

end Dtvm
