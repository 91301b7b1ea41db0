import Dtvm.Jit.Depths

/-!
# The analyzer ends

The loops of `propagateEntryDepths` have no bound of their own. A block gets a depth at most once, and
loses it at most once (`BlockInfo.isOpen`); so all but finitely many steps only take something from the
work list. `analyze_total`: with enough fuel, the analysis of any code has a result.
-/

namespace Dtvm.Jit.Analyzer

variable {infos infos' : List BlockInfo}

def BlockInfo.isOpen (b : BlockInfo) : Bool :=
  !b.hasInconsistentEntryDepth && decide (b.resolvedEntryStackDepth < 0)

/-- The block at `pc` has a depth. -/
def hasDepth (infos : List BlockInfo) (pc : Nat) : Bool :=
  infos.any fun b => b.entryPC == pc && decide (0 ≤ b.resolvedEntryStackDepth)

theorem hasDepth_iff (infos : List BlockInfo) (pc : Nat) : hasDepth infos pc = true ↔
    ∃ b ∈ infos, b.entryPC = pc ∧ 0 ≤ b.resolvedEntryStackDepth := by
  rw [hasDepth, List.any_eq_true]
  simp only [Bool.and_eq_true, beq_iff_eq, decide_eq_true_eq]

/-- If a property spreads to no other element, it holds of fewer, or of the same. -/
theorem countP_forall₂ {α : Type} {p : α → Bool} {xs ys : List α}
    (h : List.Forall₂ (fun x y => p y = true → p x = true) xs ys) : ys.countP p ≤ xs.countP p ∧
      (ys.countP p = xs.countP p → List.Forall₂ (fun x y => p x = p y) xs ys) := by
  induction h with
  | nil => exact ⟨Nat.le_refl _, fun _ => .nil⟩
  | @cons x y xs ys head _ ih =>
    obtain ⟨le, same⟩ := ih
    rw [List.countP_cons, List.countP_cons]
    by_cases hy : p y = true
    · rw [if_pos hy, if_pos (head hy)]
      refine ⟨by omega, fun eq => .cons ((head hy).trans hy.symm) (same (by omega))⟩
    · rw [if_neg hy]
      by_cases hx : p x = true
      · rw [if_pos hx]
        exact ⟨by omega, fun eq => by omega⟩
      · rw [if_neg hx]
        refine ⟨by omega, fun eq => .cons ?_ (same (by omega))⟩
        rw [Bool.eq_false_of_not_eq_true hx, Bool.eq_false_of_not_eq_true hy]

namespace Refined

variable {new : List Nat}

theorem forall₂ (h : Refined infos infos' new) (ok : Distinct infos) : List.Forall₂ (Evolves new) infos infos' := by
  have length : infos.length = infos'.length := by
    have eq := congrArg List.length h.bodies
    rw [List.length_map, List.length_map] at eq
    exact eq.symm
  refine List.forall₂_iff_get.mpr ⟨length, fun i hi hi' => ?_⟩
  obtain ⟨b, hb, step⟩ := h.evolves _ (List.get_mem infos' ⟨i, hi'⟩)
  have body : (infos'.get ⟨i, hi'⟩).toBlockBody = (infos.get ⟨i, hi⟩).toBlockBody := by
    have eq := congrArg (fun l => l[i]?) h.bodies
    simp only [List.getElem?_map, List.getElem?_eq_getElem hi, List.getElem?_eq_getElem hi',
      Option.map_some, Option.some.injEq] at eq
    exact eq
  have same := ok.eq hb (List.get_mem infos ⟨i, hi⟩)
    (congrArg BlockBody.entryPC (step.body.symm.trans body))
  rwa [same] at step

theorem measure (h : Refined infos infos' new) (ok : Distinct infos) (closed : Closed infos') :
    infos'.countP BlockInfo.isOpen < infos.countP BlockInfo.isOpen ∨
      (infos'.countP BlockInfo.isOpen = infos.countP BlockInfo.isOpen ∧
        ∀ pc, hasDepth infos' pc = true → hasDepth infos pc = true ∧ pc ∉ new) := by
  have steps := h.forall₂ ok
  obtain ⟨le, same⟩ := countP_forall₂ (p := BlockInfo.isOpen) (steps.imp fun b b' step isOpen => by
    simp only [BlockInfo.isOpen, Bool.and_eq_true, Bool.not_eq_true', decide_eq_true_eq] at isOpen ⊢
    refine ⟨Bool.eq_false_of_not_eq_true fun bad => ?_, Int.not_le.mp fun nonneg => ?_⟩
    · rw [step.inconsistent bad] at isOpen
      cases isOpen.1
    · rcases step.kept nonneg with bad | kept
      · rw [bad] at isOpen
        cases isOpen.1
      · omega)
  rcases Nat.lt_or_eq_of_le le with fewer | eq
  · exact .inl fewer
  · refine .inr ⟨eq, fun pc has => ?_⟩
    obtain ⟨b', mem, entry, nonneg⟩ := (hasDepth_iff infos' pc).mp has
    obtain ⟨i, rfl⟩ := List.mem_iff_get.mp mem
    have inside : i.val < infos.length := by
      rw [steps.length_eq]
      exact i.isLt
    have step := (List.forall₂_iff_get.mp steps).2 i.val inside i.isLt
    have still := (List.forall₂_iff_get.mp (same eq)).2 i.val inside i.isLt
    have depth : 0 ≤ (infos.get ⟨i, inside⟩).resolvedEntryStackDepth := by
      apply Int.not_lt.mp
      intro low
      -- The block would be open, or invalidated; both are so still.
      have notOpen : (infos'.get i).isOpen = false := by
        rw [BlockInfo.isOpen, decide_eq_false (Int.not_lt.mpr nonneg), Bool.and_false]
      rw [← still, BlockInfo.isOpen, decide_eq_true low, Bool.and_true, Bool.not_eq_false'] at notOpen
      have unresolved := closed.unresolved _ mem (step.inconsistent notOpen)
      omega
    have at_ : (infos.get ⟨i, inside⟩).entryPC = pc :=
      (congrArg BlockBody.entryPC step.body).symm.trans entry
    refine ⟨(hasDepth_iff infos pc).mpr ⟨_, List.get_mem infos ⟨i, inside⟩, at_, depth⟩, fun isNew => ?_⟩
    have low := (step.fresh (entry ▸ isNew)).2
    omega

end Refined

theorem propagateStep_skip {pc : Nat} (none : hasDepth infos pc = false) : propagateStep infos pc = (infos, []) := by
  rw [propagateStep]
  split
  · rfl
  · next info found =>
    obtain ⟨mem, entry⟩ := find?_mem found
    rw [if_pos]
    apply Int.not_le.mp
    intro nonneg
    rw [(hasDepth_iff infos pc).mpr ⟨info, mem, entry, nonneg⟩] at none
    cases none

/-- `propagateEntryDepths` ends: in each step a block gets a depth or loses the chance of one, or one of
the blocks with a depth has been looked at, or the work list gets shorter. -/
theorem propagateEntryDepths_total : ∀ (infos : List BlockInfo) (workList : List Nat), Resolved infos workList →
    ∃ fuel infos', ∀ k, fuel ≤ k → propagateEntryDepths k infos workList = some infos'
  | infos, [], _ => ⟨0, infos, fun k _ => by cases k <;> rfl⟩
  | infos, pc :: workList, h => by
    have resolved := propagateStep_resolved h
    obtain ⟨fuel, infos', rest⟩ := propagateEntryDepths_total (propagateStep infos pc).1
      (workList ++ (propagateStep infos pc).2) resolved
    refine ⟨fuel + 1, infos', fun k le => ?_⟩
    obtain ⟨j, rfl⟩ : ∃ j, k = j + 1 := ⟨k - 1, by omega⟩
    rw [propagateEntryDepths]
    exact rest j (by omega)
termination_by infos workList =>
  (infos.countP BlockInfo.isOpen, workList.countP (hasDepth infos), workList.length)
decreasing_by
  rcases (propagateStep_refined h.distinct pc).measure h.distinct resolved.closed with fewer | ⟨same, old⟩
  · exact .left _ _ fewer
  · rw [same]
    apply Prod.Lex.right
    have new : (propagateStep infos pc).2.countP (hasDepth (propagateStep infos pc).1) = 0 := by
      rw [List.countP_eq_zero]
      exact fun q isNew has => (old q has).2 isNew
    have rest : workList.countP (hasDepth (propagateStep infos pc).1) ≤ workList.countP (hasDepth infos) :=
      List.countP_mono_left fun q _ has => (old q has).1
    rw [List.countP_append, new, Nat.add_zero, List.countP_cons]
    cases depth : hasDepth infos pc with
    | true =>
      apply Prod.Lex.left
      rw [if_pos rfl]
      omega
    | false =>
      rw [propagateStep_skip depth, List.append_nil, if_neg Bool.false_ne_true]
      exact .right _ (Nat.lt_succ_self _)

theorem resolveEntryDepths_total (entryPC : Nat) (h : Resolved infos [])
    (fresh : ∀ b ∈ infos, b.hasInconsistentEntryDepth = false ∧ b.resolvedEntryStackDepth < 0) :
    ∃ fuel infos', ∀ k, fuel ≤ k → resolveEntryDepths k entryPC infos = some infos' := by
  cases found : find? infos entryPC with
  | none =>
    refine ⟨0, infos, fun k _ => ?_⟩
    rw [resolveEntryDepths, found]
  | some info =>
    have first := Refined.enter (fun b hb (_ : b.entryPC = entryPC) => fresh b hb) 0
    obtain ⟨fuel, infos', ends⟩ := propagateEntryDepths_total _ _ (h.refine first)
    refine ⟨fuel, infos', fun k le => ?_⟩
    rw [resolveEntryDepths, found]
    exact ends k le

theorem resolveDynamicJumpTargetEntryDepths_total (h : Resolved infos []) :
    ∃ fuel infos', ∀ k, fuel ≤ k → resolveDynamicJumpTargetEntryDepths k infos = some infos' := by
  cases unknown : hasUnknownDynamicJump infos with
  | false =>
    refine ⟨0, infos, fun k _ => ?_⟩
    rw [resolveDynamicJumpTargetEntryDepths, if_pos unknown]
  | true =>
    simp only [resolveDynamicJumpTargetEntryDepths, unknown, Bool.true_eq_false, if_false]
    generalize collectReachableDynamicJumpRegions infos = regions
    clear unknown
    induction regions generalizing infos with
    | nil => exact ⟨0, infos, fun _ _ => rfl⟩
    | cons region regions ih =>
      cases uniform : getUniformDynamicJumpEntryDepthForRegion infos region with
      | none =>
        obtain ⟨fuel, infos', ends⟩ := ih h
        refine ⟨fuel, infos', fun k le => ?_⟩
        rw [List.foldlM_cons, uniform]
        exact ends k le
      | some depth =>
        obtain ⟨new, pending, refined⟩ := enterRegion_extends h.distinct region depth
        have entered := h.refine refined
        rw [← pending] at entered
        obtain ⟨fuel, mid, ends⟩ := propagateEntryDepths_total _ _ entered
        have resolved := (propagateEntryDepths_resolved fuel entered (ends fuel (Nat.le_refl _))).1
        obtain ⟨fuel', infos', ends'⟩ := ih resolved
        refine ⟨max fuel fuel', infos', fun k le => ?_⟩
        rw [List.foldlM_cons, uniform]
        show (propagateEntryDepths k _ _).bind _ = _
        rw [ends k (by omega)]
        exact ends' k (by omega)

/-- **The analysis of any code ends.** -/
theorem analyze_total (tables : StackTables) (rev : Revision) (code : Bytes) :
    ∃ fuel a, ∀ k, fuel ≤ k → analyze tables rev code k = some a := by
  obtain ⟨resolved, fresh⟩ := linked_resolved tables rev code
  obtain ⟨fuel₁, depths, ends₁⟩ := resolveEntryDepths_total (entryBlockPC code) resolved fresh
  have resolved₁ := (resolveEntryDepths_resolved resolved fresh (ends₁ fuel₁ (Nat.le_refl _))).1
  have marked := (markDynamicJumpTargetCandidates_kept depths).refined
  obtain ⟨fuel₂, targets, ends₂⟩ :=
    resolveDynamicJumpTargetEntryDepths_total (resolved₁.refine_nil marked)
  refine ⟨max fuel₁ fuel₂, finalize targets, fun k le => ?_⟩
  rw [analyze, ends₁ k (by omega)]
  show (resolveDynamicJumpTargetEntryDepths k _).bind _ = _
  rw [ends₂ k (by omega)]
  rfl

end Dtvm.Jit.Analyzer
