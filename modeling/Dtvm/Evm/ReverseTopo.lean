import Dtvm.Evm.Dominators

/-!
# The processing order of gas blocks

`computeReverseTopo` is meant as a depth-first search, but it marks the successors of a block when it pushes them,
so they are emitted without being expanded: only the block that a search starts from is. Which blocks those are can
be read off the graph (`IsStart`), and so can the start that a block is emitted by. Each block is emitted once, and
the order is reverse topological exactly if these starts respect the edges (`computeReverseTopo_exact_iff`).
-/

namespace Dtvm.Cache

section Search

variable (nodes : List GasNode) (backEdges : Nat → List Nat)

structure TopoState where
  visited : Nat → Nat
  stack : List Nat
  order : List Nat

def isBackEdge (source target : Nat) : Bool := (backEdges source).contains target

def pushUnvisited (current : Nat) (s : TopoState) (succ : Nat) : TopoState :=
  if nodes.length ≤ succ then s
  else if !isBackEdge backEdges current succ ∧ s.visited succ = 0 then
    { s with visited := Function.update s.visited succ 1, stack := succ :: s.stack }
  else s

/-- The body of the loop, after `Current` has been popped. -/
def topoTurn (current : Nat) (s : TopoState) : TopoState :=
  if nodes.length ≤ current then s
  else if s.visited current = 2 then s
  else if s.visited current = 1 then
    { s with visited := Function.update s.visited current 2, order := s.order ++ [current] }
  else
    (succsOf nodes current).reverse.foldl (pushUnvisited nodes backEdges current)
      { s with visited := Function.update s.visited current 1, stack := current :: s.stack }

def topoLoop : Nat → TopoState → Option TopoState
  | _, ⟨visited, [], order⟩ => some ⟨visited, [], order⟩
  | 0, _ => none
  | fuel + 1, ⟨visited, current :: stack, order⟩ =>
    topoLoop fuel (topoTurn nodes backEdges current ⟨visited, stack, order⟩)

def topoStart (s : TopoState) (start : Nat) : Option TopoState :=
  if s.visited start ≠ 0 then some s else topoLoop nodes backEdges (nodes.length + 1) { s with stack := [start] }

def computeReverseTopo : Option (List Nat) :=
  ((List.range nodes.length).foldlM (topoStart nodes backEdges) ⟨fun _ => 0, [], []⟩).map TopoState.order

/-! ## What a start emits -/

/-- An edge that a search which starts at `s` follows. -/
def Forward (s x : Nat) : Prop := x ∈ succsOf nodes s ∧ x < nodes.length ∧ x ∉ backEdges s ∧ x ≠ s

instance (s : Nat) : DecidablePred (Forward nodes backEdges s) := fun _ => instDecidableAnd

/-- A search starts at each block to which no earlier start has a forward edge. -/
def IsStart (n : Nat) : Prop := ∀ s, (lt : s < n) → IsStart s → ¬ Forward nodes backEdges s n

/-- A start takes itself and the blocks that it has forward edges to. -/
def Takes (s x : Nat) : Prop := IsStart nodes backEdges s ∧ (x = s ∨ Forward nodes backEdges s x)

/-- The successors that a start pushes when some blocks have been emitted. -/
def pushed (emitted : List Nat) (start : Nat) : List Nat :=
  (succsOf nodes start).dedup.filter fun x => Forward nodes backEdges start x ∧ x ∉ emitted

def emitted : Nat → List Nat
  | 0 => []
  | n + 1 => if n ∈ emitted n then emitted n else emitted n ++ (pushed nodes backEdges (emitted n) n ++ [n])

def TopoState.of (stack order : List Nat) : TopoState :=
  ⟨fun x => if x ∈ stack then 1 else if x ∈ order then 2 else 0, stack, order⟩

variable {nodes backEdges} {start : Nat} {order : List Nat}

theorem TopoState.of_cons (x : Nat) (stack : List Nat) :
    TopoState.of (x :: stack) order = ⟨Function.update (TopoState.of stack order).visited x 1, x :: stack, order⟩ := by
  simp only [TopoState.of, TopoState.mk.injEq, and_true]
  ext y
  by_cases here : y = x <;> simp [here]

theorem pushUnvisited_of {stack : List Nat} (mem : start ∈ stack) {x : Nat} (edge : x ∈ succsOf nodes start) :
    pushUnvisited nodes backEdges start (.of stack order) x =
      .of (if (Forward nodes backEdges start x ∧ x ∉ order) ∧ x ∉ stack then x :: stack else stack) order := by
  have iff : (Forward nodes backEdges start x ∧ x ∉ order) ∧ x ∉ stack ↔
      ¬ nodes.length ≤ x ∧ (!isBackEdge backEdges start x ∧ (TopoState.of stack order).visited x = 0) := by
    simp only [Forward, TopoState.of, isBackEdge, List.contains_eq_mem]
    grind
  rw [pushUnvisited]
  split_ifs with outside push push push
  · exact absurd outside (iff.mp push).1
  · rfl
  · exact (TopoState.of_cons x stack).symm
  · exact absurd (iff.mpr ⟨outside, by assumption⟩) push
  · exact absurd (iff.mp (by assumption)).2 push
  · rfl

theorem foldr_pushUnvisited (xs : List Nat) (edges : ∀ x ∈ xs, x ∈ succsOf nodes start) :
    xs.foldr (fun x s => pushUnvisited nodes backEdges start s x) (.of [start] order) =
      .of ((xs.dedup.filter fun x => Forward nodes backEdges start x ∧ x ∉ order) ++ [start]) order := by
  induction xs with
  | nil => rfl
  | cons x xs ih =>
    obtain ⟨edge, edges⟩ := List.forall_mem_cons.mp edges
    rw [List.foldr_cons, ih edges, pushUnvisited_of (by simp) edge]
    congr 1
    by_cases again : x ∈ xs
    · rw [List.dedup_cons_of_mem again, if_neg]
      rintro ⟨new, notMem⟩
      exact notMem (by simp [again, new])
    · rw [List.dedup_cons_of_notMem again]
      by_cases new : Forward nodes backEdges start x ∧ x ∉ order
      · rw [List.filter_cons_of_pos (by simpa using new), if_pos ⟨new, by simp [again, new.1.2.2.2]⟩, List.cons_append]
      · rw [List.filter_cons_of_neg (by simpa using new), if_neg fun h => new h.1]

theorem mem_pushed {emitted : List Nat} {x : Nat} :
    x ∈ pushed nodes backEdges emitted start ↔ Forward nodes backEdges start x ∧ x ∉ emitted := by
  rw [pushed, List.mem_filter, decide_eq_true_eq, List.mem_dedup]
  exact and_iff_right_of_imp fun h => h.1.1

theorem nodup_pushed (emitted : List Nat) (start : Nat) : (pushed nodes backEdges emitted start ++ [start]).Nodup := by
  refine ((List.nodup_dedup _).filter _).append (List.nodup_singleton start) ?_
  rintro x mem self
  cases List.mem_singleton.mp self
  exact (mem_pushed.mp mem).1.2.2.2 rfl

theorem topoLoop_drain {stack : List Nat} (nodup : stack.Nodup) (inside : ∀ x ∈ stack, x < nodes.length) {fuel : Nat}
    (enough : stack.length ≤ fuel) :
    topoLoop nodes backEdges fuel (.of stack order) = some (.of [] (order ++ stack)) := by
  induction stack generalizing fuel order with
  | nil => rw [List.append_nil]; cases fuel <;> rfl
  | cons x stack ih =>
    obtain ⟨notMem, nodup⟩ := List.nodup_cons.mp nodup
    obtain ⟨here, inside⟩ := List.forall_mem_cons.mp inside
    cases fuel with
    | zero => exact absurd enough (Nat.not_succ_le_zero _)
    | succ fuel =>
      have turn : topoTurn nodes backEdges x { TopoState.of (x :: stack) order with stack } =
          .of stack (order ++ [x]) := by
        rw [topoTurn, if_neg (Nat.not_le.mpr here), if_neg (by simp [TopoState.of]), if_pos (by simp [TopoState.of])]
        simp only [TopoState.of, TopoState.mk.injEq, and_true]
        ext y
        by_cases same : y = x <;> simp [same, notMem]
      rw [List.append_cons, ← ih nodup inside (Nat.le_of_succ_le_succ enough), ← turn]
      rfl

theorem topoStart_of (inside : start < nodes.length) : topoStart nodes backEdges (.of [] order) start = some (.of []
      (if start ∈ order then order else order ++ (pushed nodes backEdges order start ++ [start]))) := by
  rw [topoStart]
  split_ifs with known mem mem
  · rfl
  · simp [TopoState.of, mem] at known
  · simp [TopoState.of, mem] at known
  · have nodup : (pushed nodes backEdges order start ++ [start]).Nodup := nodup_pushed order start
    have all : ∀ x ∈ pushed nodes backEdges order start ++ [start], x < nodes.length := by
      simp only [List.mem_append, mem_pushed, List.mem_singleton]
      rintro x (h | rfl)
      · exact h.1.2.1
      · exact inside
    have turn : topoTurn nodes backEdges start ⟨(TopoState.of [] order).visited, [], order⟩ =
        .of (pushed nodes backEdges order start ++ [start]) order := by
      rw [topoTurn, if_neg (Nat.not_le.mpr inside), if_neg (by simp [TopoState.of, mem]),
        if_neg (by simp [TopoState.of, mem]), List.foldl_reverse, pushed, ← foldr_pushUnvisited _ fun _ => id,
        TopoState.of_cons]
    show topoLoop nodes backEdges nodes.length
      (topoTurn nodes backEdges start ⟨(TopoState.of [] order).visited, [], order⟩) = _
    rw [turn]
    refine topoLoop_drain nodup all ?_
    simpa using (List.toFinset_card_of_nodup nodup).symm.trans_le
      (Finset.card_le_card (t := Finset.range nodes.length) fun x mem => by simpa using all x (List.mem_toFinset.mp mem))

variable (nodes backEdges)

theorem computeReverseTopo_eq : computeReverseTopo nodes backEdges = some (emitted nodes backEdges nodes.length) := by
  have loop (n : Nat) (le : n ≤ nodes.length) : (List.range n).foldlM (topoStart nodes backEdges) (.of [] []) =
      some (.of [] (emitted nodes backEdges n)) := by
    induction n with
    | zero => rfl
    | succ n ih =>
      rw [List.range_succ, List.foldlM_append, ih (Nat.le_of_succ_le le)]
      simp only [List.foldlM_cons, List.foldlM_nil, Option.bind_eq_bind, Option.bind_some, topoStart_of le]
      rfl
  have start : (⟨fun _ => 0, [], []⟩ : TopoState) = .of [] [] := by simp [TopoState.of]
  rw [computeReverseTopo, start, loop _ (Nat.le_refl _)]
  rfl

theorem isStart_iff {n : Nat} (all : ∀ x, x ∈ emitted nodes backEdges n ↔ ∃ s < n, Takes nodes backEdges s x) :
    IsStart nodes backEdges n ↔ n ∉ emitted nodes backEdges n := by
  rw [all, IsStart]
  refine ⟨fun h ⟨s, lt, isStart, own⟩ => h s lt isStart (own.resolve_left lt.ne'), fun h s lt isStart edge => ?_⟩
  exact h ⟨s, lt, isStart, .inr edge⟩

theorem mem_emitted (n x : Nat) : x ∈ emitted nodes backEdges n ↔ ∃ s < n, Takes nodes backEdges s x := by
  induction n generalizing x with
  | zero => simp [emitted]
  | succ n ih =>
    have split : (∃ s < n + 1, Takes nodes backEdges s x) ↔
        x ∈ emitted nodes backEdges n ∨ Takes nodes backEdges n x := by
      simp only [Nat.lt_succ_iff_lt_or_eq, or_and_right, exists_or, exists_eq_left, ih]
    have start := isStart_iff nodes backEdges ih
    rw [emitted, split, Takes]
    split_ifs with known
    · simp [start, known]
    · simp only [List.mem_append, mem_pushed, List.mem_singleton, start.mpr known]
      tauto

theorem emitted_spec {n : Nat} (le : n ≤ nodes.length) : (emitted nodes backEdges n).Nodup ∧
    (∀ x ∈ emitted nodes backEdges n, x < nodes.length) ∧ ∀ x < n, x ∈ emitted nodes backEdges n := by
  induction n with
  | zero => exact ⟨List.nodup_nil, by simp [emitted], by simp⟩
  | succ n ih =>
    obtain ⟨nodup, inside, all⟩ := ih (Nat.le_of_succ_le le)
    rw [emitted]
    split_ifs with known
    · exact ⟨nodup, inside, by grind⟩
    · refine ⟨nodup.append (nodup_pushed _ n) fun x old new => ?_, ?_, by grind⟩
      · grind [mem_pushed]
      · grind [mem_pushed, Forward]

theorem emitted_prefix {n m : Nat} (le : n ≤ m) : emitted nodes backEdges n <+: emitted nodes backEdges m := by
  induction le with
  | refl => exact List.prefix_refl _
  | step _ ih =>
    rw [emitted]
    split
    · exact ih
    · exact ih.trans (List.prefix_append _ _)

end Search

section Position

variable {α : Type} [DecidableEq α] {x y : List α} {u v : α}

theorem idxOf_append_lt_iff (mem : u ∈ x) : (x ++ y).idxOf v < (x ++ y).idxOf u ↔ x.idxOf v < x.idxOf u := by
  have := List.idxOf_lt_length_of_mem mem
  by_cases first : v ∈ x
  · rw [List.idxOf_append_of_mem mem, List.idxOf_append_of_mem first]
  · rw [List.idxOf_append_of_mem mem, List.idxOf_append_of_notMem first, List.idxOf_eq_length first]
    omega

theorem idxOf_append_lt_iff_or (notMem : u ∉ x) :
    (x ++ y).idxOf v < (x ++ y).idxOf u ↔ v ∈ x ∨ y.idxOf v < y.idxOf u := by
  by_cases first : v ∈ x
  · have := List.idxOf_lt_length_of_mem first
    simp only [List.idxOf_append_of_notMem notMem, List.idxOf_append_of_mem first, first, true_or, iff_true]
    omega
  · simp [List.idxOf_append_of_notMem notMem, List.idxOf_append_of_notMem first, first]

theorem idxOf_filter_lt_iff {P : α → Bool} {l : List α} (mem : u ∈ l) (hu : P u = true) :
    (l.filter P).idxOf v < (l.filter P).idxOf u ↔ P v = true ∧ l.idxOf v < l.idxOf u := by
  induction l with
  | nil => cases mem
  | cons a l ih =>
    by_cases here : a = u
    · subst here
      rw [List.filter_cons_of_pos hu]
      simp
    · have mem := (List.mem_cons.mp mem).resolve_left (Ne.symm here)
      by_cases keep : P a = true
      · rw [List.filter_cons_of_pos keep]
        by_cases same : a = v <;> simp_all
      · have other : P v = true → a ≠ v := fun hv same => keep (same ▸ hv)
        rw [List.filter_cons_of_neg keep, ih mem]
        by_cases hv : P v = true <;> simp_all [List.idxOf_cons]

end Position

def Leads (nodes : List GasNode) : Nat → Nat → Prop := Relation.ReflTransGen fun u v => v ∈ succsOf nodes u

/-- Which of two successors comes first; of repeated ones the last counts. -/
def ListedBefore (succs : List Nat) (v u : Nat) : Prop := succs.dedup.idxOf v < succs.dedup.idxOf u

/-- An edge is respected: an earlier start takes its target, or the one that takes its source does too, and is the
source or lists the target first. -/
def Respected (nodes : List GasNode) (backEdges : Nat → List Nat) (u v : Nat) : Prop :=
  ∀ s, Takes nodes backEdges s u → (∀ t < s, ¬ Takes nodes backEdges t u) → (∃ t < s, Takes nodes backEdges t v) ∨
    Takes nodes backEdges s v ∧ (u = s ∨ ListedBefore (succsOf nodes s) v u)

/-- Where the first start that takes a block emits its target. -/
theorem idxOf_lt_iff {nodes : List GasNode} {backEdges : Nat → List Nat} {s u v : Nat} (hs : s < nodes.length)
    (takes : Takes nodes backEdges s u) (first : ∀ t < s, ¬ Takes nodes backEdges t u) (other : v ≠ u)
    (acyclic : u ∈ succsOf nodes s → v ≠ s) :
    (emitted nodes backEdges nodes.length).idxOf v < (emitted nodes backEdges nodes.length).idxOf u ↔
      (∃ t < s, Takes nodes backEdges t v) ∨
        Takes nodes backEdges s v ∧ (u = s ∨ ListedBefore (succsOf nodes s) v u) := by
  obtain ⟨t, eq⟩ := emitted_prefix nodes backEdges (Nat.succ_le_of_lt hs)
  rw [emitted, if_neg ((isStart_iff nodes backEdges (mem_emitted nodes backEdges s)).mp takes.1)] at eq
  have new : u ∉ emitted nodes backEdges s := fun old =>
    let ⟨t, lt, earlier⟩ := (mem_emitted nodes backEdges s u).mp old
    first t lt earlier
  have mem : u ≠ s → u ∈ pushed nodes backEdges (emitted nodes backEdges s) s := fun ne =>
    mem_pushed.mpr ⟨takes.2.resolve_left ne, new⟩
  have group : u ∈ pushed nodes backEdges (emitted nodes backEdges s) s ++ [s] := by
    by_cases here : u = s <;> simp [here, mem]
  rw [← eq, idxOf_append_lt_iff (List.mem_append_right _ group), idxOf_append_lt_iff_or new, ← mem_emitted]
  refine or_congr_right' fun late => ?_
  by_cases here : u = s
  · subst here
    have notPushed : u ∉ pushed nodes backEdges (emitted nodes backEdges u) u := fun h => (mem_pushed.mp h).1.2.2.2 rfl
    rw [idxOf_append_lt_iff_or notPushed, List.idxOf_cons_self, mem_pushed]
    simp [Takes, takes.1, other, late]
  · have forward := takes.2.resolve_left here
    rw [idxOf_append_lt_iff (mem here), pushed, idxOf_filter_lt_iff (List.mem_dedup.mpr forward.1) (by simp [forward, new])]
    simp [Takes, takes.1, acyclic forward.1, late, here, ListedBefore]

def threeBlocks : BlockGraph where
  nodes := [{ succs := [1] }, { succs := [2], preds := [0] }, { preds := [1] }]
  succs_lt := by rintro (_ | _ | _ | i) j h <;> simp_all [succsOf]
  preds_iff := by rintro (_ | _ | _ | i) (_ | _ | _ | j) <;> simp [succsOf, predsOf]

/-- The third block comes after its predecessor. -/
theorem computeReverseTopo_threeBlocks :
    (((computeReachable threeBlocks.nodes).bind (computeDominators threeBlocks.nodes)).bind fun dom =>
        computeReverseTopo threeBlocks.nodes (findBackEdgesUsingDominators threeBlocks.nodes dom)) = some [1, 0, 2] ∧
      2 ∈ succsOf threeBlocks.nodes 1 ∧ ¬ Leads threeBlocks.nodes 2 1 := by
  refine ⟨by decide +kernel, by decide, fun leads => ?_⟩
  obtain same | ⟨n, edge, -⟩ := Relation.ReflTransGen.cases_head leads
  · cases same
  · cases edge

/-- **The processing order**: each block is there once, and it is reverse topological exactly if the edges that lie on
no cycle are respected. -/
theorem computeReverseTopo_exact_iff (g : BlockGraph) (backEdges : Nat → List Nat) :
    ∃ order, computeReverseTopo g.nodes backEdges = some order ∧ order.Nodup ∧ (∀ n, n ∈ order ↔ n < g.nodes.length) ∧
      ((∀ u v, v ∈ succsOf g.nodes u → ¬ Leads g.nodes v u → order.idxOf v < order.idxOf u) ↔
        ∀ u v, v ∈ succsOf g.nodes u → ¬ Leads g.nodes v u → Respected g.nodes backEdges u v) := by
  obtain ⟨nodup, inside, all⟩ := emitted_spec g.nodes backEdges (Nat.le_refl _)
  refine ⟨_, computeReverseTopo_eq g.nodes backEdges, nodup, fun n => ⟨inside n, all n⟩,
    forall₄_congr fun u v edge acyclic => ?_⟩
  have source : u < g.nodes.length := by
    by_contra outside
    rw [succsOf, List.getElem?_eq_none (Nat.le_of_not_lt outside)] at edge
    cases edge
  have other : v ≠ u := fun same => acyclic (same ▸ .refl)
  have decides {s : Nat} (takes : Takes g.nodes backEdges s u) (first : ∀ t < s, ¬ Takes g.nodes backEdges t u)
      (hs : s < g.nodes.length) := idxOf_lt_iff hs takes first other
    fun back same => acyclic (same ▸ Relation.ReflTransGen.single back)
  obtain ⟨s, hs, takes⟩ := (mem_emitted g.nodes backEdges _ u).mp (all u source)
  classical
  have some : ∃ s, Takes g.nodes backEdges s u := ⟨s, takes⟩
  have least : Nat.find some < g.nodes.length := (Nat.find_min' some takes).trans_lt hs
  refine ⟨fun before t takes first => ?_, fun respected => ?_⟩
  · exact (decides takes first (lt_of_le_of_lt (not_lt.mp fun lt => first s lt ‹_›) hs)).mp before
  · have first : ∀ t < Nat.find some, ¬ Takes g.nodes backEdges t u := fun t lt => Nat.find_min some lt
    exact (decides (Nat.find_spec some) first least).mpr (respected _ (Nat.find_spec some) first)

end Dtvm.Cache
