import Dtvm.Jit.AnalyzerEnds
import Dtvm.Jit.Lifted

/-!
# The depths that are found are those of the paths

`resolveEntryDepths` hands depths on along the successors, from 0 at the entry. A negative depth stands for none,
so a path is followed only as long as its depth is not negative (`LivePath`).

A depth that is found is the depth of every such path. A block gets its depth if all paths to it agree, those
with negative depths on the way included (`resolveEntryDepths_paths`). Where a path has a negative depth, the
depths depend on the order of the work list (`resolveEntryDepths_forgets`).
-/

namespace Dtvm.Jit.Analyzer

/-! ## Paths -/

section Paths

variable (blocks : List BlockBody)

/-- A way along successors from one block to another, with its effect on the depth. -/
inductive Walk (start : Nat) : Nat → Int → Prop
  | refl : Walk start start 0
  | step {b : BlockBody} {d : Int} {succ : Nat} (walk : Walk start b.entryPC d) (mem : b ∈ blocks)
    (isSucc : succ ∈ b.successors) : Walk start succ (d + b.stackHeightDiff)

inductive LivePath (start : Nat) : Nat → Int → Prop
  | refl : LivePath start start 0
  | step {b : BlockBody} {d : Int} {succ : Nat} (path : LivePath start b.entryPC d) (mem : b ∈ blocks)
    (isSucc : succ ∈ b.successors) (nonneg : 0 ≤ d + b.stackHeightDiff) :
    LivePath start succ (d + b.stackHeightDiff)

variable {blocks} {start pc q : Nat} {d e : Int}

theorem LivePath.walk (h : LivePath blocks start pc d) : Walk blocks start pc d := by
  induction h with
  | refl => exact .refl
  | step _ mem isSucc _ ih => exact .step ih mem isSucc

theorem LivePath.nonneg (h : LivePath blocks start pc d) : 0 ≤ d := by
  cases h with
  | refl => exact Int.le_refl 0
  | step _ _ _ nonneg => exact nonneg

theorem Walk.trans (h : Walk blocks start pc d) (h' : Walk blocks pc q e) : Walk blocks start q (d + e) := by
  induction h' with
  | refl =>
    rw [Int.add_zero]
    exact h
  | step _ mem isSucc ih =>
    rw [← Int.add_assoc]
    exact .step ih mem isSucc

theorem Walk.live (h : Walk blocks start pc d) (nonneg : ∀ q e, Walk blocks start q e → 0 ≤ e) :
    LivePath blocks start pc d := by
  induction h with
  | refl => exact .refl
  | step walk mem isSucc ih => exact .step ih mem isSucc (nonneg _ _ (.step walk mem isSucc))

end Paths

variable {infos infos' : List BlockInfo} {start : Nat}

theorem visitLoop_walks (pc fuel : Nat) (workList visited : List Nat)
    (work : ∀ q ∈ workList, ∃ e, Walk (infos.map BlockInfo.toBlockBody) pc q e)
    (seen : ∀ q ∈ visited, ∃ e, Walk (infos.map BlockInfo.toBlockBody) pc q e) :
    ∀ q ∈ visitLoop infos fuel workList visited, ∃ e, Walk (infos.map BlockInfo.toBlockBody) pc q e := by
  induction fuel generalizing workList visited with
  | zero => exact seen
  | succ fuel ih =>
    cases workList with
    | nil => exact seen
    | cons p workList =>
      rw [List.forall_mem_cons] at work
      rw [visitLoop]
      split
      · exact ih workList visited work.2 seen
      · next info found =>
        obtain ⟨mem, rfl⟩ := find?_mem found
        obtain ⟨e, walk⟩ := work.1
        have new : ∀ q ∈ freshSuccessors visited info.successors,
            ∃ e, Walk (infos.map BlockInfo.toBlockBody) pc q e := by
          intro q isNew
          have isSucc := ((freshSuccessors_fresh visited info.successors).isNew q isNew).1
          exact ⟨_, .step walk (List.mem_map_of_mem mem) isSucc⟩
        exact ih _ _ (List.forall_mem_append.mpr ⟨work.2, new⟩) (List.forall_mem_append.mpr ⟨seen, new⟩)

theorem reachable_walks (infos : List BlockInfo) (pc : Nat) :
    ∀ q ∈ reachable infos pc, ∃ e, Walk (infos.map BlockInfo.toBlockBody) pc q e := by
  have itself : ∀ q ∈ [pc], ∃ e, Walk (infos.map BlockInfo.toBlockBody) pc q e := by
    intro q mem
    rw [List.mem_singleton.mp mem]
    exact ⟨0, .refl⟩
  exact visitLoop_walks pc _ [pc] [pc] itself itself

/-! ## What a depth is evidence of -/

/-- A depth is that of a path, and two paths differ where there is none for good. -/
structure Traced (blocks : List BlockBody) (start : Nat) (infos : List BlockInfo) : Prop where
  bodies : infos.map BlockInfo.toBlockBody = blocks
  resolved : ∀ b ∈ infos, 0 ≤ b.resolvedEntryStackDepth → LivePath blocks start b.entryPC b.resolvedEntryStackDepth
  inconsistent : ∀ b ∈ infos, b.hasInconsistentEntryDepth = true →
    ∃ d d', d ≠ d' ∧ Walk blocks start b.entryPC d ∧ Walk blocks start b.entryPC d'

namespace Traced

variable {blocks : List BlockBody}

variable (h : Traced blocks start infos)

include h

theorem kept (k : Kept infos infos') : Traced blocks start infos' := by
  obtain ⟨f, rfl, same⟩ := k
  have entry (b : BlockInfo) : (f b).entryPC = b.entryPC := congrArg BlockBody.entryPC (same b).1
  refine ⟨?_, ?_, ?_⟩
  · rw [← h.bodies, List.map_map]
    exact List.map_congr_left fun b _ => (same b).1
  · rw [List.forall_mem_map]
    intro b mem
    rw [entry, (same b).2.1]
    exact h.resolved b mem
  · rw [List.forall_mem_map]
    intro b mem
    rw [entry, (same b).2.2]
    exact h.inconsistent b mem

theorem enter {pc : Nat} {depth : Int} (live : 0 ≤ depth → LivePath blocks start pc depth) :
    Traced blocks start (modify infos pc fun i => { i with resolvedEntryStackDepth := depth }) := by
  refine ⟨?_, ?_, ?_⟩
  · rw [← h.bodies, modify, List.map_map]
    refine List.map_congr_left fun b _ => ?_
    show BlockInfo.toBlockBody (if b.entryPC = pc then _ else b) = b.toBlockBody
    split <;> rfl
  · rw [modify, List.forall_mem_map]
    intro b mem
    split
    · next here => exact fun nonneg => here ▸ live nonneg
    · exact h.resolved b mem
  · rw [modify, List.forall_mem_map]
    intro b mem
    split <;> exact h.inconsistent b mem

/-- A block with two paths of different depths, and what can be reached from it, lose their depths. -/
theorem invalidate {pc : Nat} {d d' : Int} (ne : d ≠ d')
    (path : Walk blocks start pc d) (path' : Walk blocks start pc d') :
    Traced blocks start (invalidateReachableEntryDepths infos pc) := by
  refine ⟨?_, ?_, ?_⟩
  · rw [← h.bodies, invalidateReachableEntryDepths, List.map_map]
    refine List.map_congr_left fun b _ => ?_
    show BlockInfo.toBlockBody (if b.entryPC ∈ _ then _ else b) = b.toBlockBody
    split <;> rfl
  · rw [invalidateReachableEntryDepths, List.forall_mem_map]
    intro b mem
    split
    · exact fun nonneg => absurd nonneg (show ¬ (0 : Int) ≤ -1 by decide)
    · exact h.resolved b mem
  · rw [invalidateReachableEntryDepths, List.forall_mem_map]
    intro b mem
    split
    · next seen =>
      obtain ⟨e, walk⟩ := reachable_walks infos pc _ seen
      rw [h.bodies] at walk
      exact fun _ => ⟨d + e, d' + e, by omega, path.trans walk, path'.trans walk⟩
    · exact h.inconsistent b mem

omit h in
theorem enterAt {st : List BlockInfo × List Nat} (h : Traced blocks start st.1) {pc : Nat} {depth : Int}
    (path : Walk blocks start pc depth) (live : 0 ≤ depth → LivePath blocks start pc depth) :
    Traced blocks start (enterAt depth st pc).1 := by
  rw [Analyzer.enterAt]
  split
  · exact h
  · next info found =>
    obtain ⟨mem, rfl⟩ := find?_mem found
    split
    · exact h
    · split
      · exact h.enter live
      · next known =>
        split
        · next ne => exact h.invalidate ne (h.resolved info mem (Int.not_lt.mp known)).walk path
        · exact h

theorem propagateStep (pc : Nat) : Traced blocks start (propagateStep infos pc).1 := by
  rw [Analyzer.propagateStep]
  split
  · exact h
  · next info found =>
    obtain ⟨mem, rfl⟩ := find?_mem found
    split
    · exact h
    · next known =>
      have path := h.resolved info mem (Int.not_lt.mp known)
      have member : info.toBlockBody ∈ blocks := h.bodies ▸ List.mem_map_of_mem mem
      have first := h.kept (Kept.modify (f := fun i =>
        { i with resolvedExitStackDepth := info.resolvedEntryStackDepth + info.stackHeightDiff })
        (fun _ => ⟨rfl, rfl, rfl⟩) infos info.entryPC)
      -- The successors are entered one after the other, each with the path through this block.
      have each (succs : List Nat) (within : ∀ s ∈ succs, s ∈ info.successors) (st : List BlockInfo × List Nat)
          (traced : Traced blocks start st.1) : Traced blocks start
            (succs.foldl (Analyzer.enterAt (info.resolvedEntryStackDepth + info.stackHeightDiff)) st).1 := by
        induction succs generalizing st with
        | nil => exact traced
        | cons s succs ih =>
          rw [List.forall_mem_cons] at within
          refine ih within.2 _ (traced.enterAt (.step path.walk member within.1) fun nonneg => ?_)
          exact .step path member within.1 nonneg
      exact each info.successors (fun _ mem => mem) _ first

omit h in
theorem propagateEntryDepths (fuel : Nat) {infos : List BlockInfo} (h : Traced blocks start infos) {workList : List Nat}
    (eq : propagateEntryDepths fuel infos workList = some infos') : Traced blocks start infos' := by
  induction fuel generalizing infos workList with
  | zero =>
    cases workList with
    | nil =>
      cases eq
      exact h
    | cons => cases eq
  | succ fuel ih =>
    cases workList with
    | nil =>
      cases eq
      exact h
    | cons pc workList => exact ih (h.propagateStep pc) eq

theorem resolveEntryDepths {fuel : Nat}
    (eq : resolveEntryDepths fuel start infos = some infos') : Traced blocks start infos' := by
  rw [Analyzer.resolveEntryDepths] at eq
  split at eq
  · cases eq
    exact h
  · exact Traced.propagateEntryDepths fuel (h.enter fun _ => .refl) eq

end Traced

theorem Resolved.livePath {blocks : List BlockBody} (h : Resolved infos [])
    (bodies : infos.map BlockInfo.toBlockBody = blocks) (entry : Held infos start 0) {pc : Nat} {d : Int}
    (path : LivePath blocks start pc d) : Held infos pc d := by
  induction path with
  | refl => exact entry
  | step path mem isSucc nonneg ih =>
    rw [← bodies] at mem
    obtain ⟨b, memB, rfl⟩ := List.mem_map.mp mem
    rcases ih b memB rfl with bad | depth
    · intro c memC here
      exact .inl (h.closed.successors b memB bad c memC (here ▸ isSucc))
    · rw [← depth] at path nonneg ⊢
      exact h.follows b memB path.nonneg List.not_mem_nil nonneg _ isSucc

/-- **The depths that are found are those of the paths.** A depth that is found is that of every path whose depth is
never negative, and a block gets its depth if all paths to it agree. -/
theorem resolveEntryDepths_paths (distinct : Distinct infos)
    (fresh : ∀ b ∈ infos, b.hasInconsistentEntryDepth = false ∧ b.resolvedEntryStackDepth < 0) (start : Nat) :
    ∃ fuel infos', (∀ k, fuel ≤ k → resolveEntryDepths k start infos = some infos') ∧
      infos'.map BlockInfo.toBlockBody = infos.map BlockInfo.toBlockBody ∧ ∀ c ∈ infos', ∀ n : Nat,
        (c.resolvedEntryStackDepth = n → LivePath (infos.map BlockInfo.toBlockBody) start c.entryPC n ∧
          ∀ d, LivePath (infos.map BlockInfo.toBlockBody) start c.entryPC d → d = n) ∧
        (LivePath (infos.map BlockInfo.toBlockBody) start c.entryPC n →
          (∀ d, Walk (infos.map BlockInfo.toBlockBody) start c.entryPC d → d = n) → c.resolvedEntryStackDepth = n) ∧
        ((∀ pc d, Walk (infos.map BlockInfo.toBlockBody) start pc d → 0 ≤ d) → (c.resolvedEntryStackDepth = n ↔
            (∃ d, Walk (infos.map BlockInfo.toBlockBody) start c.entryPC d) ∧
            ∀ d, Walk (infos.map BlockInfo.toBlockBody) start c.entryPC d → d = n)) := by
  have unresolved : Resolved infos [] := by
    refine ⟨distinct, ⟨fun b mem bad => ?_, fun b mem _ => (fresh b mem).2⟩, fun b mem nonneg => ?_⟩
    · rw [(fresh b mem).1] at bad
      cases bad
    · exact absurd nonneg (Int.not_le.mpr (fresh b mem).2)
  have untraced : Traced (infos.map BlockInfo.toBlockBody) start infos := by
    refine ⟨rfl, fun b mem nonneg => ?_, fun b mem bad => ?_⟩
    · exact absurd nonneg (Int.not_le.mpr (fresh b mem).2)
    · rw [(fresh b mem).1] at bad
      cases bad
  obtain ⟨fuel, infos', ends⟩ := resolveEntryDepths_total start unresolved fresh
  obtain ⟨resolved, entry, -⟩ := resolveEntryDepths_resolved unresolved fresh (ends fuel (Nat.le_refl _))
  have traced := untraced.resolveEntryDepths (ends fuel (Nat.le_refl _))
  refine ⟨fuel, infos', ends, traced.bodies, fun c mem n => ?_⟩
  have sound (depth : c.resolvedEntryStackDepth = n) :
      LivePath (infos.map BlockInfo.toBlockBody) start c.entryPC n ∧
        ∀ d, LivePath (infos.map BlockInfo.toBlockBody) start c.entryPC d → d = n := by
    have nonneg : 0 ≤ c.resolvedEntryStackDepth := depth ▸ Int.natCast_nonneg n
    refine ⟨depth ▸ traced.resolved c mem nonneg, fun d path => ?_⟩
    rcases resolved.livePath traced.bodies entry path c mem rfl with bad | same
    · exact absurd (resolved.closed.unresolved c mem bad) (Int.not_lt.mpr nonneg)
    · exact same.symm.trans depth
  have complete (path : LivePath (infos.map BlockInfo.toBlockBody) start c.entryPC n)
      (all : ∀ d, Walk (infos.map BlockInfo.toBlockBody) start c.entryPC d → d = n) :
      c.resolvedEntryStackDepth = n := by
    rcases resolved.livePath traced.bodies entry path c mem rfl with bad | same
    · obtain ⟨d, d', ne, walk, walk'⟩ := traced.inconsistent c mem bad
      exact absurd ((all d walk).trans (all d' walk').symm) ne
    · exact same
  refine ⟨sound, complete, fun nonneg => ⟨fun depth => ?_, ?_⟩⟩
  · obtain ⟨path, all⟩ := sound depth
    exact ⟨⟨n, path.walk⟩, fun d walk => all d (walk.live nonneg)⟩
  · rintro ⟨⟨d, walk⟩, all⟩
    exact complete (all d walk ▸ walk.live nonneg) all

/-- A block with two ways to it. One takes a value too many. -/
def underflowingJoin : Bytes :=
  [0x34, 0x60, 8, 0x57, 0x50, 0x60, 15, 0x56, 0x5b, 0x34, 0x34, 0x34, 0x60, 15, 0x56, 0x5b, 0x00]

def freshInfos (code : Bytes) : List BlockInfo :=
  (buildBlocks freeTables .cancun code).map fun body => { toBlockBody := body }

/-- Two ways lead to the loop at 8, and it leads to itself. -/
def joinAndLoop : Bytes := [0x34, 0x34, 0x60, 8, 0x57, 0x60, 8, 0x56, 0x5b, 0x34, 0x60, 8, 0x57, 0x00]

/-- The loop has the depth 1, and so has every path to it. -/
theorem resolveEntryDepths_paths_joinAndLoop : Distinct (freshInfos joinAndLoop) ∧
    ∃ fuel infos', (∀ k, fuel ≤ k → resolveEntryDepths k 0 (freshInfos joinAndLoop) = some infos') ∧
      (∃ c ∈ infos', c.entryPC = 8 ∧ c.resolvedEntryStackDepth = 1) ∧
      ∀ d, LivePath ((freshInfos joinAndLoop).map BlockInfo.toBlockBody) 0 8 d → d = 1 := by
  have distinct : Distinct (freshInfos joinAndLoop) := by
    rw [Distinct]
    decide +kernel
  have fresh : ∀ b ∈ freshInfos joinAndLoop, b.hasInconsistentEntryDepth = false ∧ b.resolvedEntryStackDepth < 0 := by
    decide +kernel
  obtain ⟨fuel, infos', ends, -, paths⟩ := resolveEntryDepths_paths distinct fresh 0
  have found : ∃ infos' ∈ resolveEntryDepths (fuel + 10) 0 (freshInfos joinAndLoop),
      ∃ c ∈ infos', c.entryPC = 8 ∧ c.resolvedEntryStackDepth = 1 := by
    rw [show resolveEntryDepths (fuel + 10) 0 (freshInfos joinAndLoop) =
      resolveEntryDepths 10 0 (freshInfos joinAndLoop) from rfl]
    decide +kernel
  rw [ends _ (Nat.le_add_right _ _)] at found
  obtain ⟨_, ⟨⟩, c, mem, entry, depth⟩ := found
  exact ⟨distinct, fuel, infos', ends, ⟨c, mem, entry, depth⟩, entry ▸ ((paths c mem 1).1 depth).2⟩

/-- The block at 15 keeps the depth 3, although a path to it has the depth -1. -/
theorem resolveEntryDepths_forgets : ∃ infos', resolveEntryDepths 10 0 (freshInfos underflowingJoin) = some infos' ∧
    (∃ c ∈ infos', c.entryPC = 15 ∧ c.resolvedEntryStackDepth = 3) ∧
    Walk ((freshInfos underflowingJoin).map BlockInfo.toBlockBody) 0 15 (-1) := by
  have found : ∃ infos' ∈ resolveEntryDepths 10 0 (freshInfos underflowingJoin),
      ∃ c ∈ infos', c.entryPC = 15 ∧ c.resolvedEntryStackDepth = 3 := by decide +kernel
  obtain ⟨infos', eq, depth⟩ := found
  refine ⟨infos', eq, depth, ?_⟩
  have first : ∃ b ∈ (freshInfos underflowingJoin).map BlockInfo.toBlockBody,
      b.entryPC = 0 ∧ 4 ∈ b.successors ∧ b.stackHeightDiff = 0 := by decide +kernel
  have second : ∃ b ∈ (freshInfos underflowingJoin).map BlockInfo.toBlockBody,
      b.entryPC = 4 ∧ 15 ∈ b.successors ∧ b.stackHeightDiff = -1 := by decide +kernel
  obtain ⟨b, mem, entry, succ, diff⟩ := first
  obtain ⟨c, memC, entryC, succC, diffC⟩ := second
  have path : Walk ((freshInfos underflowingJoin).map BlockInfo.toBlockBody) 0 4 (0 + b.stackHeightDiff) :=
    .step (entry ▸ .refl) mem succ
  have path' := Walk.step (entryC ▸ path) memC succC
  rwa [diff, diffC] at path'

end Dtvm.Jit.Analyzer
