import Dtvm.Wasm.Interpreter

/-!
# The pages of a memory

`readMemoryType`, `Instantiator::instantiateMemories` and `Instance::growLinearMemory`. A module without a
maximum is given `PresetMaxMemoryPages` by the loader, yet the instantiator takes a maximum of zero to be
missing as well, and uses what is in the new instance's `CurPages`, which has not been set.
-/

namespace Dtvm.Wasm

open Effect

def presetMaxMemoryPages : Nat := 65536

inductive MemoryError where
  | sizeMinimumGreaterThanMaximum
  | memorySizeTooLarge
  | abort
deriving DecidableEq, Repr

/-- `readMemoryType`, of the limits that are read: the initial and the maximal number of pages. -/
def readMemoryType (min : Nat) (max : Option Nat) : Except MemoryError (Nat × Nat) :=
  if min > max.getD min then .error .sizeMinimumGreaterThanMaximum
  else
    let maxMemPages := max.getD presetMaxMemoryPages
    if min > presetMaxMemoryPages ∨ maxMemPages > presetMaxMemoryPages then .error .memorySizeTooLarge
    else .ok (min, maxMemPages)

/-- `checkAndUpdateMemPages`; there is no limit when `vmMaxMemPages` is zero. -/
def checkAndUpdateMemPages (vmMaxMemPages curMemPages maxMemPages : Nat) : Except MemoryError Nat :=
  if vmMaxMemPages > 0 then
    if curMemPages > vmMaxMemPages then .error .memorySizeTooLarge else .ok (min maxMemPages vmMaxMemPages)
  else .ok maxMemPages

structure LinearMemory extends MemoryInstance where
  memBase : Nat
  memEnd : Nat

/-- `instantiateMemories`, for the memory of a module. `old` is what its `CurPages` held before, `base` what
the allocator returns. -/
def instantiateMemory (entry : Nat × Nat) (imported : Bool) (vmMaxMemPages : Nat) (old : UInt32)
    (base : Option Nat) : Except MemoryError LinearMemory := do
  let maxMemPages := if imported then entry.2 else if entry.2 = 0 then old.toNat else entry.2
  let maxPages ← checkAndUpdateMemPages vmMaxMemPages entry.1 maxMemPages
  let totalMemSize := entry.1 * bytesPerPage
  if totalMemSize > 2 ^ 32 - 1 then .error .abort
  else if base = none ∧ totalMemSize > 0 then .error .abort
  else
    let memBase := base.getD 0
    .ok ⟨⟨entry.1, maxPages, totalMemSize, fun _ => 0, rfl⟩, memBase, memBase + totalMemSize⟩

theorem MemoryInstance.growLinearMemory_cases (delta : Nat) (allocated : Bool) (m : MemoryInstance)
    {r : Bool × MemoryInstance} (ran : m.growLinearMemory delta allocated = r) : (r.2 = m ∧ (r.1 = true → delta = 0)) ∨
    ∃ pages, pages = (m.curPages + delta) % 2 ^ 32 ∧ m.curPages ≤ pages ∧ pages ≤ m.maxPages ∧ delta ≠ 0 ∧
      r.1 = true ∧ r.2.curPages = pages ∧ r.2.maxPages = m.maxPages := by
  subst ran
  unfold growLinearMemory
  by_cases zero : delta = 0
  · exact .inl (by simp [zero])
  simp only [if_neg zero]
  by_cases out : (m.curPages + delta) % 2 ^ 32 < m.curPages ∨ (m.curPages + delta) % 2 ^ 32 > m.maxPages
  · rw [if_pos out]
    exact .inl ⟨rfl, (Bool.noConfusion ·)⟩
  simp only [if_neg out]
  split
  · exact .inl ⟨rfl, (Bool.noConfusion ·)⟩
  · cases allocated with
    | false => exact .inl ⟨rfl, (Bool.noConfusion ·)⟩
    | true => exact .inr ⟨_, rfl, by omega, by omega, zero, rfl, rfl, rfl⟩

namespace LinearMemory

/-- `growLinearMemory`; `base` is what `enlargeWasmMemory` returns. -/
def grow (delta : UInt32) (base : Option Nat) (m : LinearMemory) : Bool × LinearMemory :=
  let (grown, memory) := m.toMemoryInstance.growLinearMemory delta.toNat base.isSome
  if grown ∧ delta ≠ 0 then (grown, ⟨memory, base.getD 0, base.getD 0 + memory.memSize⟩)
  else (grown, { m with toMemoryInstance := memory })

def grown (m : LinearMemory) (history : List (UInt32 × Option Nat)) : LinearMemory :=
  history.foldl (fun m g => (m.grow g.1 g.2).2) m

/-- The bounds on the pages, for these limits of the module and of the runtime. -/
structure Bounded (min : Nat) (max : Option Nat) (vmMaxMemPages : Nat) (m : LinearMemory) : Prop where
  initial : min ≤ m.curPages
  current : m.curPages ≤ m.maxPages
  declared : m.maxPages ≤ max.getD presetMaxMemoryPages
  runtime : vmMaxMemPages > 0 → m.maxPages ≤ vmMaxMemPages
  size : m.memSize = m.curPages * bytesPerPage
  stop : m.memEnd = m.memBase + m.memSize

/-- What holds of every memory: it has grown from so many pages, within its maximum. -/
structure GrownFrom (min maxPages : Nat) (m : LinearMemory) : Prop where
  initial : min ≤ m.curPages
  current : m.curPages ≤ m.maxPages
  maximum : m.maxPages = maxPages
  stop : m.memEnd = m.memBase + m.memSize

variable {min maxPages : Nat} {m : LinearMemory}

theorem grow_cases (h : GrownFrom min maxPages m) (small : maxPages < 2 ^ 32) (delta : UInt32)
    (base : Option Nat) : GrownFrom min maxPages (m.grow delta base).2 ∧
      ((m.grow delta base).1 = true → m.curPages + delta.toNat ≤ m.maxPages) ∧
      ((m.grow delta base).1 = false → (m.grow delta base).2 = m) := by
  have zero : delta = 0 ↔ delta.toNat = 0 := by rw [← UInt32.toNat_inj]; rfl
  obtain ⟨initial, current, maximum, stop⟩ := h
  unfold grow
  rcases m.growLinearMemory_cases delta.toNat base.isSome rfl with
    ⟨same, idle⟩ | ⟨pages, at_pages, le, inside, some, done, cur, max⟩
  · -- nothing has changed, and only growth by nothing is reported as done
    have skip : ¬((m.growLinearMemory delta.toNat base.isSome).1 = true ∧ delta ≠ 0) :=
      fun h => h.2 (zero.mpr (idle h.1))
    simp only [if_neg skip, same]
    refine ⟨⟨initial, current, maximum, stop⟩, fun ok => ?_, fun _ => trivial⟩
    rwa [idle ok]
  · have delta_lt := delta.toNat_lt
    have sum : pages = m.curPages + delta.toNat := by omega
    have nonzero : delta ≠ 0 := fun h => some (zero.mp h)
    simp only [done, true_and, ne_eq, nonzero, not_false_eq_true, if_true]
    refine ⟨⟨?_, ?_, max.trans maximum, rfl⟩, fun _ => by omega, Bool.noConfusion⟩ <;>
      simp only [cur, max] <;> omega

theorem GrownFrom.grown (small : maxPages < 2 ^ 32) (history : List (UInt32 × Option Nat))
    (h : GrownFrom min maxPages m) : GrownFrom min maxPages (m.grown history) := by
  induction history generalizing m with
  | nil => exact h
  | cons g history ih => exact ih (grow_cases h small g.1 g.2).1

end LinearMemory

section Instantiated

variable {minMemPages vmMaxMemPages : Nat} {optMaxMemPages base : Option Nat} {entry : Nat × Nat}
  {imported : Bool} {old : UInt32} {m : LinearMemory}

theorem instantiateMemory_grownFrom (declared : readMemoryType minMemPages optMaxMemPages = .ok entry)
    (instantiated : instantiateMemory entry imported vmMaxMemPages old base = .ok m) :
    ∃ maxMemPages, maxMemPages = (if imported = false ∧ optMaxMemPages = some 0 then old.toNat
        else optMaxMemPages.getD presetMaxMemoryPages) ∧
      m.maxPages = (if vmMaxMemPages > 0 then min maxMemPages vmMaxMemPages else maxMemPages) ∧
      m.GrownFrom minMemPages m.maxPages ∧ m.maxPages < 2 ^ 32 := by
  obtain ⟨ordered, declared⟩ := ite_error_eq_ok.mp declared
  obtain ⟨small, declared⟩ := ite_error_eq_ok.mp declared
  cases declared
  obtain ⟨maxPages, updated, instantiated⟩ := bind_eq_ok.mp instantiated
  obtain ⟨-, instantiated⟩ := ite_error_eq_ok.mp instantiated
  obtain ⟨-, instantiated⟩ := ite_error_eq_ok.mp instantiated
  cases instantiated
  have same : (if imported then optMaxMemPages.getD presetMaxMemoryPages
      else if optMaxMemPages.getD presetMaxMemoryPages = 0 then old.toNat
      else optMaxMemPages.getD presetMaxMemoryPages) =
      if imported = false ∧ optMaxMemPages = some 0 then old.toNat
      else optMaxMemPages.getD presetMaxMemoryPages := by
    cases imported <;> cases optMaxMemPages <;> simp [presetMaxMemoryPages]
  rw [same] at updated
  unfold presetMaxMemoryPages at *
  generalize at_max : (if imported = false ∧ optMaxMemPages = some 0 then old.toNat
    else optMaxMemPages.getD 65536) = maxMemPages at updated
  -- a memory with a maximum of zero has no pages
  have between : minMemPages ≤ maxMemPages ∧ maxMemPages < 2 ^ 32 := by
    have old_lt := old.toNat_lt
    subst at_max
    split
    case isTrue zero =>
      rw [zero.2, Option.getD_some] at ordered
      omega
    case isFalse =>
      cases optMaxMemPages <;> simp only [Option.getD_some, Option.getD_none] at * <;> omega
  unfold checkAndUpdateMemPages at updated
  refine ⟨maxMemPages, rfl, ?_⟩
  split at updated
  case isTrue limited =>
    obtain ⟨fits, updated⟩ := ite_error_eq_ok.mp updated
    cases updated
    rw [if_pos limited]
    exact ⟨rfl, ⟨Nat.le_refl _, by dsimp only; omega, rfl, rfl⟩, by dsimp only; omega⟩
  case isFalse unlimited =>
    cases updated
    rw [if_neg unlimited]
    exact ⟨rfl, ⟨Nat.le_refl _, between.1, rfl, rfl⟩, between.2⟩

/-- **The pages of a memory.** They stay within the limits whatever the history of growth exactly unless the
maximum of a memory of the module is zero and something else was left in the instance. Growth never passes
the maximum, and changes nothing when it fails. -/
theorem instantiateMemory_bounded (declared : readMemoryType minMemPages optMaxMemPages = .ok entry)
    (instantiated : instantiateMemory entry imported vmMaxMemPages old base = .ok m) :
    ((∀ history, (m.grown history).Bounded minMemPages optMaxMemPages vmMaxMemPages) ↔
      (imported = false → optMaxMemPages = some 0 → old = 0)) ∧ ∀ history delta base,
      (((m.grown history).grow delta base).1 = true →
        (m.grown history).curPages + delta.toNat ≤ (m.grown history).maxPages) ∧
      (((m.grown history).grow delta base).1 = false → ((m.grown history).grow delta base).2 = m.grown history) := by
  obtain ⟨maxMemPages, at_max, maxPages, start, small⟩ := instantiateMemory_grownFrom declared instantiated
  refine ⟨⟨fun bounded first zero => ?_, fun kept history => ?_⟩, fun history delta base =>
    (LinearMemory.grow_cases (start.grown small history) small delta base).2⟩
  · have declared := (bounded []).declared
    rw [if_pos ⟨first, zero⟩] at at_max
    rw [zero, Option.getD_some, LinearMemory.grown, List.foldl_nil, maxPages] at declared
    have none : old.toNat = 0 := by split at declared <;> omega
    exact UInt32.toNat_inj.mp none
  · have within : maxMemPages ≤ optMaxMemPages.getD presetMaxMemoryPages := by
      rw [at_max]
      split
      case isTrue zero => simp [kept zero.1 zero.2]
      case isFalse => exact Nat.le_refl _
    obtain ⟨initial, current, maximum, stop⟩ := start.grown small history
    refine ⟨initial, current, ?_, ?_, (m.grown history).sized, stop⟩
    · rw [maximum, maxPages]
      split <;> omega
    · intro limited
      rw [maximum, maxPages, if_pos limited]
      exact Nat.min_le_right _ _

end Instantiated

/-- A memory that may not have a page has one. -/
theorem instantiateMemory_unbounded :
    ∃ m, readMemoryType 0 (some 0) = .ok (0, 0) ∧ instantiateMemory (0, 0) false 0 5 (some 0) = .ok m ∧
      (m.grow 1 (some 0)).1 = true ∧ (m.grow 1 (some 0)).2.curPages = 1 :=
  ⟨_, rfl, rfl, rfl, rfl⟩

/-- One page at first and no maximum, with a limit of the runtime. -/
theorem instantiateMemory_bounded_unlimited :
    ∃ m, readMemoryType 1 none = .ok (1, 65536) ∧ instantiateMemory (1, 65536) false 100 5 (some 0) = .ok m ∧
      ∀ history, (m.grown history).Bounded 1 none 100 := by
  have declared : readMemoryType 1 none = .ok (1, 65536) := rfl
  have instantiated : instantiateMemory (1, 65536) false 100 5 (some 0) = .ok _ := rfl
  exact ⟨_, declared, instantiated, (instantiateMemory_bounded declared instantiated).1.mpr nofun⟩

end Dtvm.Wasm
