import Dtvm.Stack.Ops

/-!
# How deep a stack gets

A run of instructions seen through the depth of its stack alone. An instruction fails if it looks at more
values than there are, or if it leaves more than fit. A summary of a run says all of this without the depth
at its start: how many values it takes from there, how high it rises above it, and where it ends
(`Summary.exact`). It is computed along the run.
-/

namespace OperandStack

def Op.after (op : Op) (d : Nat) : Nat := d - op.need + op.gives

def depthAfter (ops : List Op) (d : Nat) : Nat := ops.foldl (fun d op => op.after d) d

def underflows : List Op → Nat → Bool
  | [], _ => false
  | op :: ops, d => decide (d < op.need) || underflows ops (op.after d)

/-- After some instruction there are more values than the limit. -/
def exceeds (limit : Nat) : List Op → Nat → Bool
  | [], _ => false
  | op :: ops, d => decide (limit < op.after d) || exceeds limit ops (op.after d)

/-- A run of checked instructions: each fails if it takes too many values or leaves too many. -/
def checked (limit : Nat) : List Op → Nat → Option Nat
  | [], d => some d
  | op :: ops, d =>
    if d < op.need then none else if limit < op.after d then none else checked limit ops (op.after d)

theorem checked_isNone (limit : Nat) (ops : List Op) (d : Nat) :
    (checked limit ops d).isNone = (underflows ops d || exceeds limit ops d) := by
  induction ops generalizing d with
  | nil => rfl
  | cons op ops ih =>
    rw [checked, underflows, exceeds]
    by_cases low : d < op.need
    · rw [if_pos low, decide_eq_true low]
      rfl
    · by_cases high : limit < op.after d
      · rw [if_neg low, if_pos high, decide_eq_true high, Bool.true_or, Bool.or_true]
        rfl
      · rw [if_neg low, if_neg high, decide_eq_false low, decide_eq_false high, ih, Bool.false_or, Bool.false_or]

structure Summary where
  /-- How many values below the start the run looks at. -/
  entry : Nat := 0
  /-- The depth, from the start. -/
  height : Int := 0
  /-- The greatest depth, from the start. -/
  top : Int := 0

namespace Summary

def add (s : Summary) (op : Op) : Summary :=
  let height := s.height + op.gives - op.need
  { entry := max s.entry (op.need - s.height).toNat, height, top := max s.top height }

def addAll (s : Summary) (ops : List Op) : Summary := ops.foldl add s

theorem le_addAll (s : Summary) (ops : List Op) : s.entry ≤ (s.addAll ops).entry ∧ s.top ≤ (s.addAll ops).top := by
  induction ops generalizing s with
  | nil => exact ⟨Nat.le_refl _, Int.le_refl _⟩
  | cons op ops ih =>
    obtain ⟨entry, top⟩ := ih (s.add op)
    exact ⟨Nat.le_trans (Nat.le_max_left _ _) entry, Int.le_trans (Int.le_max_left _ _) top⟩

/-- The depth `c` where a run from `d` stands whose summary is `s`. -/
structure Stands (s : Summary) (d c : Nat) : Prop where
  entry : s.entry ≤ d
  depth : (c : Int) = d + s.height

variable {s : Summary} {d c : Nat} {op : Op}

section

variable (h : s.Stands d c)

include h

theorem Stands.underflows_iff : c < op.need ↔ d < (s.add op).entry := by
  have depth := h.depth
  have entry := h.entry
  show c < op.need ↔ d < max s.entry (op.need - s.height).toNat
  omega

theorem Stands.add (enough : op.need ≤ c) : (s.add op).Stands d (op.after c) := by
  refine ⟨Nat.not_lt.mp fun low => absurd (h.underflows_iff.mpr low) (Nat.not_lt.mpr enough), ?_⟩
  have depth := h.depth
  show ((c - op.need + op.gives : Nat) : Int) = d + (s.height + op.gives - op.need)
  omega

theorem Stands.enough {ops : List Op} (ok : ((s.add op).addAll ops).entry ≤ d) : op.need ≤ c := by
  refine Nat.not_lt.mp fun low => ?_
  exact absurd (Nat.lt_of_lt_of_le (h.underflows_iff.mp low) (le_addAll _ ops).1) (Nat.not_lt.mpr ok)

theorem Stands.underflows (ops : List Op) : underflows ops c = true ↔ d < (s.addAll ops).entry := by
  induction ops generalizing s c with
  | nil => exact ⟨(fun no => nomatch no), fun lt => absurd h.entry (Nat.not_le.mpr lt)⟩
  | cons op ops ih =>
    rw [OperandStack.underflows, Bool.or_eq_true, decide_eq_true_iff]
    by_cases low : c < op.need
    · have entry := h.underflows_iff.mp low
      exact ⟨fun _ => Nat.lt_of_lt_of_le entry (le_addAll _ ops).1, fun _ => .inl low⟩
    · rw [ih (h.add (Nat.not_lt.mp low))]
      exact or_iff_right low

theorem Stands.exceeds {limit : Nat} (ops : List Op) (below : (d : Int) + s.top ≤ limit)
    (ok : (s.addAll ops).entry ≤ d) : exceeds limit ops c = true ↔ (limit : Int) < d + (s.addAll ops).top := by
  induction ops generalizing s c with
  | nil => exact ⟨(fun no => nomatch no), fun lt => absurd below (Int.not_le.mpr lt)⟩
  | cons op ops ih =>
    have next := h.add (h.enough ok)
    have top : (s.add op).top = max s.top (s.add op).height := rfl
    have depth := next.depth
    rw [OperandStack.exceeds, Bool.or_eq_true, decide_eq_true_iff]
    by_cases high : limit < op.after c
    · have le := (le_addAll (s.add op) ops).2
      refine ⟨fun _ => ?_, fun _ => .inl high⟩
      show (limit : Int) < d + ((s.add op).addAll ops).top
      omega
    · rw [ih next (by omega) ok]
      exact or_iff_right high

theorem Stands.depthAfter (ops : List Op) (ok : (s.addAll ops).entry ≤ d) :
    (depthAfter ops c : Int) = d + (s.addAll ops).height := by
  induction ops generalizing s c with
  | nil => exact h.depth
  | cons op ops ih =>
    exact ih (h.add (h.enough ok)) ok

end

/-- **A summary is exact.** -/
theorem exact (ops : List Op) {d limit : Nat} (fits : d ≤ limit) :
    (underflows ops d = true ↔ d < (addAll {} ops).entry) ∧
      (underflows ops d = false → (exceeds limit ops d = true ↔ (limit : Int) < d + (addAll {} ops).top) ∧
        (depthAfter ops d : Int) = d + (addAll {} ops).height) := by
  have start : Stands {} d d := ⟨Nat.zero_le d, (Int.add_zero _).symm⟩
  have low := start.underflows ops
  refine ⟨low, fun ok => ?_⟩
  have entry : (addAll {} ops).entry ≤ d := by
    refine Nat.not_lt.mp fun lt => ?_
    rw [low.mpr lt] at ok
    cases ok
  refine ⟨start.exceeds ops ?_ entry, start.depthAfter ops entry⟩
  show (d : Int) + 0 ≤ limit
  omega

end Summary

end OperandStack
