import Dtvm.Evm.ChunkTables
import Mathlib

/-!
# The dominators of gas blocks

`computeReachable`, `computeDominators` and `findBackEdgesUsingDominators`. The sets of dominators start full and
are made smaller until nothing changes; only a block without predecessors starts with itself alone. The result
is right unless an edge goes back to the entry: then no block starts small, and no set ever gets smaller
(`computeDominators_exact_iff`).
-/

namespace Dtvm.Cache

open Finset Relation

def succsOf (nodes : List GasNode) (i : Nat) : List Nat := (nodes[i]?.map GasNode.succs).getD []

def predsOf (nodes : List GasNode) (i : Nat) : List Nat := (nodes[i]?.map GasNode.preds).getD []

structure BlockGraph where
  nodes : List GasNode
  succs_lt {i j : Nat} : j ∈ succsOf nodes i → j < nodes.length
  preds_iff {i j : Nat} : i ∈ predsOf nodes j ↔ j ∈ succsOf nodes i

inductive Path (nodes : List GasNode) : Nat → List Nat → Prop where
  | entry : 0 < nodes.length → Path nodes 0 [0]
  | step {u v : Nat} {l : List Nat} : Path nodes u l → v ∈ succsOf nodes u → Path nodes v (v :: l)

def Reachable (nodes : List GasNode) (n : Nat) : Prop := ∃ l, Path nodes n l

def Dominates (nodes : List GasNode) (d n : Nat) : Prop := ∀ l, Path nodes n l → d ∈ l

/-! ## Reachable blocks -/

/-- The body of the loop over the successors; the state is the stack and the marked blocks. -/
def pushSucc (numBlocks : Nat) (s : List Nat × Finset Nat) (succ : Nat) : List Nat × Finset Nat :=
  if numBlocks ≤ succ ∨ succ ∈ s.2 then s else (succ :: s.1, insert succ s.2)

def reachableLoop (nodes : List GasNode) : Nat → List Nat × Finset Nat → Option (Finset Nat)
  | _, ([], reachable) => some reachable
  | 0, _ => none
  | fuel + 1, (node :: stack, reachable) =>
    reachableLoop nodes fuel ((succsOf nodes node).foldl (pushSucc nodes.length) (stack, reachable))

def computeReachable (nodes : List GasNode) : Option (Finset Nat) :=
  if nodes = [] then some ∅ else reachableLoop nodes nodes.length ([0], {0})

theorem foldl_pushSucc (n : Nat) (xs : List Nat) (s : List Nat × Finset Nat) :
    ∃ new marked, xs.foldl (pushSucc n) s = (new ++ s.1, marked) ∧ marked.card = s.2.card + new.length ∧
      (∀ x ∈ new, x ∈ xs) ∧ (∀ x, x ∈ marked ↔ x ∈ s.2 ∨ x ∈ new) ∧ ∀ x ∈ xs, x < n → x ∈ marked := by
  induction xs generalizing s with
  | nil => exact ⟨[], s.2, by simp⟩
  | cons x xs ih =>
    rw [List.foldl_cons, pushSucc]
    split
    · obtain ⟨new, marked, eq, card, fresh, iff, all⟩ := ih s
      exact ⟨new, marked, eq, card, by grind, iff, by grind⟩
    · next unknown =>
      obtain ⟨new, marked, eq, card, fresh, iff, all⟩ := ih (x :: s.1, insert x s.2)
      rw [card_insert_of_notMem fun mem => unknown (.inr mem)] at card
      refine ⟨new ++ [x], marked, by rw [eq]; simp, ?_, by grind, by grind, by grind⟩
      rw [card, List.length_append, List.length_singleton]
      omega

/-- The search goes on: what is marked can be reached, and is on the stack or has its successors marked. -/
structure Searching (nodes : List GasNode) (stack : List Nat) (marked : Finset Nat) : Prop where
  entry : 0 ∈ marked
  sound : ∀ u ∈ marked, Reachable nodes u
  stacked : ∀ u ∈ stack, u ∈ marked
  closed : ∀ u ∈ marked, u ∈ stack ∨ ∀ v ∈ succsOf nodes u, v ∈ marked

theorem Path.lt {g : BlockGraph} {n : Nat} {l : List Nat} (path : Path g.nodes n l) : ∀ d ∈ l, d < g.nodes.length := by
  induction path with
  | entry pos => simpa using pos
  | step _ edge ih => exact List.forall_mem_cons.mpr ⟨g.succs_lt edge, ih⟩

theorem Reachable.lt {g : BlockGraph} {n : Nat} (h : Reachable g.nodes n) : n < g.nodes.length := by
  obtain ⟨l, path⟩ := h
  cases path with
  | entry pos => exact pos
  | step _ edge => exact g.succs_lt edge

theorem reachableLoop_exact (g : BlockGraph) (fuel : Nat) {stack : List Nat} {marked : Finset Nat}
    (h : Searching g.nodes stack marked) (enough : stack.length + g.nodes.length ≤ fuel + marked.card) :
    ∃ r, reachableLoop g.nodes fuel (stack, marked) = some r ∧ ∀ n, n ∈ r ↔ Reachable g.nodes n := by
  have bound : marked.card ≤ g.nodes.length := by
    exact (card_le_card fun u mem => mem_range.mpr (h.sound u mem).lt).trans_eq (card_range _)
  cases stack with
  | nil =>
    refine ⟨marked, by cases fuel <;> rfl, fun n => ⟨h.sound n, ?_⟩⟩
    rintro ⟨l, path⟩
    induction path with
    | entry => exact h.entry
    | step _ edge ih => exact (h.closed _ ih).resolve_left List.not_mem_nil _ edge
  | cons node stack =>
    cases fuel with
    | zero =>
      rw [List.length_cons] at enough
      omega
    | succ fuel =>
      obtain ⟨new, marked', eq, card, fresh, iff, all⟩ := foldl_pushSucc g.nodes.length (succsOf g.nodes node) (stack, marked)
      rw [reachableLoop, eq]
      obtain ⟨l, path⟩ := h.sound node (h.stacked node List.mem_cons_self)
      have closed : ∀ u ∈ marked', u ∈ new ++ stack ∨ ∀ v ∈ succsOf g.nodes u, v ∈ marked' := by
        grind [h.closed, g.succs_lt]
      refine reachableLoop_exact g fuel ⟨by grind [h.entry], fun u mem => ?_, by grind [h.stacked], closed⟩ ?_
      · rcases (iff u).mp mem with old | new
        · exact h.sound u old
        · exact ⟨_, path.step (fresh u new)⟩
      · simp only [card, List.length_append, List.length_cons] at enough ⊢
        omega

theorem computeReachable_exact (g : BlockGraph) :
    ∃ r, computeReachable g.nodes = some r ∧ ∀ n, n ∈ r ↔ Reachable g.nodes n := by
  rw [computeReachable]
  split
  · next none =>
    exact ⟨∅, rfl, fun n => iff_of_false (notMem_empty n) fun h => Nat.not_lt_zero n (by simpa [none] using h.lt)⟩
  · next some =>
    have entry := Path.entry (List.length_pos_of_ne_nil some)
    refine reachableLoop_exact g _ ⟨mem_singleton_self 0, ?_, by simp, by simp⟩ ?_
    · intro u mem
      obtain rfl := mem_singleton.mp mem
      exact ⟨_, entry⟩
    · rw [card_singleton, List.length_singleton, Nat.add_comm]

/-! ## The sets of dominators -/

section Dominators

variable (nodes : List GasNode) (reachable : Finset Nat)

def Skipped (node : Nat) : Prop := node ∉ reachable ∨ predsOf nodes node = []

instance (node : Nat) : Decidable (Skipped nodes reachable node) := instDecidableOr

def initialDom (node : Nat) : Finset Nat := if Skipped nodes reachable node then {node} else range nodes.length

def newDom (dom : Nat → Finset Nat) (node : Nat) : Finset Nat :=
  let preds := (predsOf nodes node).filter fun pred => pred < nodes.length ∧ pred ∈ reachable
  insert node (if preds = [] then ∅ else preds.foldl (fun new pred => new ∩ dom pred) (range nodes.length))

/-- The body of the loop over the blocks; the state is `Dom` and `Changed`. -/
def domTurn (s : (Nat → Finset Nat) × Bool) (node : Nat) : (Nat → Finset Nat) × Bool :=
  if Skipped nodes reachable node then s
  else if newDom nodes reachable s.1 node = s.1 node then s
  else (Function.update s.1 node (newDom nodes reachable s.1 node), true)

def dominatorsLoop : Nat → (Nat → Finset Nat) → Option (Nat → Finset Nat)
  | 0, _ => none
  | fuel + 1, dom =>
    let s := (List.range nodes.length).foldl (domTurn nodes reachable) (dom, false)
    if s.2 then dominatorsLoop fuel s.1 else some s.1

def computeDominators : Option (Nat → Finset Nat) :=
  dominatorsLoop nodes reachable (nodes.length * nodes.length + 1) (initialDom nodes reachable)

end Dominators

theorem mem_foldl_inter (dom : Nat → Finset Nat) {d : Nat} (preds : List Nat) (s : Finset Nat) :
    d ∈ preds.foldl (fun new pred => new ∩ dom pred) s ↔ d ∈ s ∧ ∀ p ∈ preds, d ∈ dom p := by
  induction preds generalizing s with
  | nil => simp
  | cons p preds ih => rw [List.foldl_cons, ih, mem_inter, List.forall_mem_cons, and_assoc]

def Enters (nodes : List GasNode) (p node : Nat) : Prop := Reachable nodes p ∧ node ∈ succsOf nodes p

section Sets

variable {g : BlockGraph} {r : Finset Nat} (exact : ∀ n, n ∈ r ↔ Reachable g.nodes n)

include exact

theorem mem_newDom {dom : Nat → Finset Nat} {node d : Nat} : d ∈ newDom g.nodes r dom node ↔
    d = node ∨ (∃ p, Enters g.nodes p node) ∧ d < g.nodes.length ∧ ∀ p, Enters g.nodes p node → d ∈ dom p := by
  have mem (p : Nat) : p ∈ ((predsOf g.nodes node).filter fun pred => pred < g.nodes.length ∧ pred ∈ r) ↔
      Enters g.nodes p node := by
    rw [List.mem_filter, g.preds_iff, decide_eq_true_eq, exact]
    exact ⟨fun h => ⟨h.2.2, h.1⟩, fun h => ⟨h.2, h.1.lt, h.1⟩⟩
  rw [newDom, mem_insert]
  refine or_congr_right ?_
  split
  · next none => simp only [← mem, none, List.not_mem_nil, exists_false, false_and, notMem_empty]
  · next some =>
    obtain ⟨p, hp⟩ := List.exists_mem_of_ne_nil _ some
    simp only [mem_foldl_inter, mem_range, mem, show (∃ p, Enters g.nodes p node) from ⟨p, (mem p).mp hp⟩, true_and]

theorem newDom_mono {dom dom' : Nat → Finset Nat} (le : dom' ≤ dom) (node : Nat) :
    newDom g.nodes r dom' node ≤ newDom g.nodes r dom node := by
  intro d mem
  rw [mem_newDom exact] at mem ⊢
  exact mem.imp_right fun h => ⟨h.1, h.2.1, fun p enters => le p (h.2.2 p enters)⟩

end Sets

section Loop

variable (nodes : List GasNode) (r : Finset Nat)

def Shrinking (dom : Nat → Finset Nat) : Prop := ∀ n, ¬ Skipped nodes r n → newDom nodes r dom n ≤ dom n

def Growing (dom : Nat → Finset Nat) : Prop := ∀ n, ¬ Skipped nodes r n → dom n ≤ newDom nodes r dom n

def total (dom : Nat → Finset Nat) : Nat := ∑ n ∈ range nodes.length, (dom n).card

/-- What changes do to the sets: they get smaller, but no smaller than sets that would grow. -/
structure Descends (dom dom' : Nat → Finset Nat) : Prop where
  shrinking : Shrinking nodes r dom'
  le : dom' ≤ dom
  less : total nodes dom' < total nodes dom
  above {x : Nat → Finset Nat} : Growing nodes r x → x ≤ dom → x ≤ dom'

end Loop

variable {g : BlockGraph} {r : Finset Nat} (exact : ∀ n, n ∈ r ↔ Reachable g.nodes n)

theorem Descends.trans {a b c : Nat → Finset Nat} (h : Descends g.nodes r a b) (h' : Descends g.nodes r b c) :
    Descends g.nodes r a c :=
  ⟨h'.shrinking, h'.le.trans h.le, h'.less.trans h.less, fun growing le => h'.above growing (h.above growing le)⟩

include exact

theorem Shrinking.update {dom : Nat → Finset Nat} (h : Shrinking g.nodes r dom) {node : Nat}
    (inside : node < g.nodes.length) (open' : ¬ Skipped g.nodes r node) (different : newDom g.nodes r dom node ≠ dom node) :
    Descends g.nodes r dom (Function.update dom node (newDom g.nodes r dom node)) := by
  have le : Function.update dom node (newDom g.nodes r dom node) ≤ dom := update_le_self_iff.mpr (h node open')
  refine ⟨fun n open' => (newDom_mono exact le n).trans ?_, le, sum_lt_sum (fun n _ => card_le_card (le n)) ?_, ?_⟩
  · rw [Function.update_apply]
    split
    · next here => rw [here]
    · exact h n open'
  · refine ⟨node, mem_range.mpr inside, card_lt_card ?_⟩
    rw [Function.update_self]
    exact (h node open').ssubset_of_ne different
  · exact fun growing le => le_update_iff.mpr ⟨(growing node open').trans (newDom_mono exact le node), fun n _ => le n⟩

theorem foldl_domTurn {xs : List Nat} (inside : ∀ x ∈ xs, x < g.nodes.length) {s : (Nat → Finset Nat) × Bool}
    (h : Shrinking g.nodes r s.1) :
    (xs.foldl (domTurn g.nodes r) s = s ∧ ∀ x ∈ xs, ¬ Skipped g.nodes r x → newDom g.nodes r s.1 x = s.1 x) ∨
      ∃ dom, xs.foldl (domTurn g.nodes r) s = (dom, true) ∧ Descends g.nodes r s.1 dom := by
  induction xs generalizing s with
  | nil => exact .inl ⟨rfl, by simp⟩
  | cons x xs ih =>
    obtain ⟨hx, inside⟩ := List.forall_mem_cons.mp inside
    rw [List.foldl_cons, domTurn]
    split_ifs with skipped same
    · exact (ih inside h).imp_left fun h => ⟨h.1, List.forall_mem_cons.mpr ⟨absurd skipped, h.2⟩⟩
    · exact (ih inside h).imp_left fun h => ⟨h.1, List.forall_mem_cons.mpr ⟨fun _ => same, h.2⟩⟩
    · have first := h.update exact hx skipped same
      rcases ih inside (s := (_, true)) first.shrinking with ⟨eq, -⟩ | ⟨dom, eq, rest⟩
      · exact .inr ⟨_, eq, first⟩
      · exact .inr ⟨dom, eq, first.trans rest⟩

theorem dominatorsLoop_greatest {dom : Nat → Finset Nat} (h : Shrinking g.nodes r dom) {fuel : Nat}
    (enough : total g.nodes dom < fuel) : ∃ dom', dominatorsLoop g.nodes r fuel dom = some dom' ∧ dom' ≤ dom ∧
      (∀ n < g.nodes.length, ¬ Skipped g.nodes r n → newDom g.nodes r dom' n = dom' n) ∧
      ∀ x, Growing g.nodes r x → x ≤ dom → x ≤ dom' := by
  induction fuel generalizing dom with
  | zero => exact absurd enough (Nat.not_lt_zero _)
  | succ fuel ih =>
    rw [dominatorsLoop]
    rcases foldl_domTurn exact (fun x => List.mem_range.mp) (s := (dom, false)) h with ⟨eq, stable⟩ | ⟨next, eq, descends⟩
    · rw [eq]
      exact ⟨dom, rfl, le_rfl, fun n inside => stable n (List.mem_range.mpr inside), fun _ _ le => le⟩
    · obtain ⟨dom', loop, le, stable, above⟩ :=
        ih descends.shrinking (Nat.lt_of_lt_of_le descends.less (Nat.le_of_lt_succ enough))
      rw [eq]
      exact ⟨dom', loop, le.trans descends.le, stable, fun x growing le => above x growing (descends.above growing le)⟩

theorem computeDominators_greatest : ∃ dom, computeDominators g.nodes r = some dom ∧ dom ≤ initialDom g.nodes r ∧
    (∀ n < g.nodes.length, ¬ Skipped g.nodes r n → newDom g.nodes r dom n = dom n) ∧
    ∀ x, Growing g.nodes r x → x ≤ initialDom g.nodes r → x ≤ dom := by
  refine dominatorsLoop_greatest exact (fun n open' d mem => ?_) (Nat.lt_succ_of_le ?_)
  · rw [initialDom, if_neg open', mem_range]
    rcases (mem_newDom exact).mp mem with rfl | ⟨-, lt, -⟩
    · exact ((exact d).mp (not_not.mp (not_or.mp open').1)).lt
    · exact lt
  · refine (sum_le_card_nsmul _ _ g.nodes.length fun n mem => ?_).trans_eq (by rw [card_range, smul_eq_mul])
    rw [initialDom]
    split
    · rw [card_singleton]
      exact Nat.one_le_of_lt (mem_range.mp mem)
    · rw [card_range]

/-! ## When the sets are right -/

theorem not_skipped {p n : Nat} (enters : Enters g.nodes p n) : ¬ Skipped g.nodes r n := by
  obtain ⟨⟨l, path⟩, edge⟩ := enters
  refine not_or.mpr ⟨not_not.mpr ((exact n).mpr ⟨_, path.step edge⟩), fun none => ?_⟩
  exact List.not_mem_nil (none ▸ g.preds_iff.mpr edge)

variable {dom : Nat → Finset Nat}

theorem mem_of_closed (above : ∀ x, Growing g.nodes r x → x ≤ initialDom g.nodes r → x ≤ dom) {Q : Nat → Nat → Prop}
    (closed : ∀ n d, Reachable g.nodes n → Q d n → d ≠ n → (∃ p, Enters g.nodes p n) ∧ ∀ p, Enters g.nodes p n → Q d p)
    {n d : Nat} (hn : Reachable g.nodes n) (lt : d < g.nodes.length) (q : Q d n) : d ∈ dom n := by
  classical
  refine above (fun n => {d ∈ range g.nodes.length | Reachable g.nodes n ∧ Q d n}) ?_ ?_ n
    (mem_filter.mpr ⟨mem_range.mpr lt, hn, q⟩)
  · intro n open' d mem
    obtain ⟨lt, hn, q⟩ := mem_filter.mp mem
    refine (mem_newDom exact).mpr (or_iff_not_imp_left.mpr fun other => ?_)
    obtain ⟨enters, all⟩ := closed n d hn q other
    exact ⟨enters, mem_range.mp lt, fun p enters => mem_filter.mpr ⟨lt, enters.1, all p enters⟩⟩
  · intro n d mem
    obtain ⟨lt, hn, q⟩ := mem_filter.mp mem
    rw [initialDom]
    split
    · next skipped =>
      refine mem_singleton.mpr (by_contra fun other => ?_)
      obtain ⟨p, enters⟩ := (closed n d hn q other).1
      exact not_skipped exact enters skipped
    · exact lt

theorem mem_of_path (le : dom ≤ initialDom g.nodes r)
    (stable : ∀ n < g.nodes.length, ¬ Skipped g.nodes r n → newDom g.nodes r dom n = dom n)
    (entry : (¬ ∃ p, Enters g.nodes p 0) ∨ g.nodes.length ≤ 1) {n d : Nat} {l : List Nat} (path : Path g.nodes n l)
    (mem : d ∈ dom n) : d ∈ l := by
  induction path with
  | entry pos =>
    refine List.mem_singleton.mpr ?_
    by_cases skipped : Skipped g.nodes r 0
    · have first := le 0 mem
      rw [initialDom, if_pos skipped] at first
      exact mem_singleton.mp first
    · rw [← stable 0 pos skipped, mem_newDom exact] at mem
      rcases mem with zero | ⟨enters, lt, -⟩
      · exact zero
      · have := entry.resolve_left (not_not.mpr enters)
        omega
  | step path edge ih =>
    have enters : Enters g.nodes _ _ := ⟨⟨_, path⟩, edge⟩
    rw [← stable _ (g.succs_lt edge) (not_skipped exact enters), mem_newDom exact] at mem
    rcases mem with rfl | ⟨-, -, all⟩
    · exact List.mem_cons_self
    · exact List.mem_cons_of_mem _ (ih (all _ enters))

omit exact

def findBackEdgesUsingDominators (nodes : List GasNode) (dom : Nat → Finset Nat) (source : Nat) : List Nat :=
  (succsOf nodes source).filter fun target => target < nodes.length ∧ target ∈ dom source

/-- The sets are those of the dominators, and the back edges those to a dominator. -/
def DominatorsExact (g : BlockGraph) (dom : Nat → Finset Nat) : Prop :=
  (∀ n, Reachable g.nodes n → ∀ d, d ∈ dom n ↔ Dominates g.nodes d n) ∧
    ∀ u, Reachable g.nodes u → ∀ v,
      v ∈ findBackEdgesUsingDominators g.nodes dom u ↔ v ∈ succsOf g.nodes u ∧ Dominates g.nodes v u

def backToEntry : BlockGraph where
  nodes := [{ succs := [1], preds := [1] }, { succs := [0], preds := [0] }]
  succs_lt := by rintro (_ | _ | i) j h <;> simp_all [succsOf]
  preds_iff := by rintro (_ | _ | i) (_ | _ | j) <;> simp [succsOf, predsOf]

theorem computeDominators_backToEntry :
    ((computeReachable backToEntry.nodes).bind (computeDominators backToEntry.nodes)).map
        (fun dom => (dom 0, findBackEdgesUsingDominators backToEntry.nodes dom 0)) = some ({0, 1}, [1]) ∧
      Path backToEntry.nodes 0 [0] :=
  ⟨by decide +kernel, .entry (by decide)⟩

/-- **Dominators**: the sets are right exactly if no edge goes back to the entry, or there is only one block. -/
theorem computeDominators_exact_iff (g : BlockGraph) :
    ∃ dom, (computeReachable g.nodes).bind (computeDominators g.nodes) = some dom ∧ (DominatorsExact g dom ↔
        (∀ p, Reachable g.nodes p → 0 ∉ succsOf g.nodes p) ∨ g.nodes.length ≤ 1) := by
  obtain ⟨r, found, exact⟩ := computeReachable_exact g
  obtain ⟨dom, computed, le, stable, above⟩ := computeDominators_greatest exact
  have enters {n : Nat} (hn : Reachable g.nodes n) (other : n ≠ 0) : ∃ p, Enters g.nodes p n := by
    obtain ⟨l, path⟩ := hn
    cases path with
    | entry => exact absurd rfl other
    | step path edge => exact ⟨_, ⟨_, path⟩, edge⟩
  refine ⟨dom, by rw [found, Option.bind_some, computed],
    fun h => or_iff_not_imp_right.mpr fun several p hp edge => ?_, fun entry => ?_⟩
  · -- every set stays full, and the entry is dominated by itself alone
    have entry : Path g.nodes 0 [0] := .entry (by omega)
    have full : 1 ∈ dom 0 := by
      refine mem_of_closed exact above (Q := fun _ _ => True) (fun n d hn _ _ => ⟨?_, fun _ _ => trivial⟩)
        ⟨_, entry⟩ (by omega) trivial
      by_cases other : n = 0
      · exact other ▸ ⟨p, hp, edge⟩
      · exact enters hn other
    exact absurd (List.mem_singleton.mp ((h.1 0 ⟨_, entry⟩ 1).mp full _ entry)) one_ne_zero
  · have sets {n : Nat} (hn : Reachable g.nodes n) (d : Nat) : d ∈ dom n ↔ Dominates g.nodes d n := by
      refine ⟨fun mem l path => mem_of_path exact le stable (entry.imp_left fun none enters => ?_) path mem, fun h => ?_⟩
      · obtain ⟨p, hp, edge⟩ := enters
        exact none p hp edge
      · obtain ⟨l, path⟩ := hn
        refine mem_of_closed exact above (fun n d hn dominates other => ⟨?_, fun p enters l path => ?_⟩) ⟨l, path⟩
          (path.lt d (h l path)) h
        · refine enters hn ?_
          rintro rfl
          exact other (List.mem_singleton.mp (dominates _ (.entry (Nat.zero_lt_of_lt hn.lt))))
        · exact (List.mem_cons.mp (dominates _ (path.step enters.2))).resolve_left other
    refine ⟨fun n hn d => sets hn d, fun u hu v => ?_⟩
    rw [findBackEdgesUsingDominators, List.mem_filter, decide_eq_true_eq, sets hu]
    exact ⟨fun h => ⟨h.1, h.2.2⟩, fun h => ⟨h.1, g.succs_lt h.1, h.2⟩⟩

end Dtvm.Cache
