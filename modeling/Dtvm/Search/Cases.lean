import Mathlib.Algebra.Order.Ring.Int

/-!
# Finding a key among cases

A list of cases, each a key and a value, and the value of a key (`List.lookup`). A search that does
not walk the list is right if it narrows the list without losing the key. Three ways to narrow it:
by comparing with one case of a sorted list (`lookup_split`, and `lookup_segment` for a part of the
list given by its bounds), by a hash of the keys (`lookup_bucket`), and by the distance from the
first key where the keys are consecutive (`lookup_consecutive`).
-/

namespace Search

variable {κ β γ : Type}

theorem lookup_cons_ite [DecidableEq κ] (k : κ) (c : κ × β) (rest : List (κ × β)) :
    (c :: rest).lookup k = if k = c.1 then some c.2 else rest.lookup k := by
  rw [List.lookup_cons]
  split
  · rename_i same
    rw [if_pos (beq_iff_eq.mp same)]
  · rename_i other
    rw [if_neg (beq_eq_false_iff_ne.mp other)]

theorem lookup_eq_none [DecidableEq κ] {cases : List (κ × β)} {k : κ} (absent : ∀ c ∈ cases, k ≠ c.1) :
    cases.lookup k = none := by
  rw [List.lookup_eq_none_iff]
  intro c mem
  simpa using absent c mem

theorem lookup_perm [DecidableEq κ] {cases cases' : List (κ × β)} (perm : cases.Perm cases')
    (distinct : (cases.map Prod.fst).Nodup) (k : κ) : cases.lookup k = cases'.lookup k := by
  induction perm with
  | nil => rfl
  | cons c _ ih => rw [lookup_cons_ite, lookup_cons_ite, ih (List.nodup_cons.mp distinct).2]
  | swap c d rest =>
    have apart : d.1 ≠ c.1 := fun same => (List.nodup_cons.mp distinct).1 (by simp [same])
    simp only [lookup_cons_ite]
    by_cases first : k = d.1
    · rw [if_pos first, if_neg fun second => apart (first.symm.trans second), if_pos first]
    · rw [if_neg first, if_neg first]
  | trans perm _ ih ih' => rw [ih distinct, ih' ((perm.map Prod.fst).nodup_iff.mp distinct)]

/-! ## Sorted cases -/

/-- The part of a list between two indices, the second excluded. -/
def segment (cases : List (κ × β)) (s e : Nat) : List (κ × β) := (cases.drop s).take (e - s)

section

variable (cases : List (κ × β))

theorem segment_all : segment cases 0 cases.length = cases := by
  simp [segment]

theorem segment_self (s : Nat) : segment cases s s = [] := by
  simp [segment]

theorem segment_split {s m e : Nat} (hs : s ≤ m) (he : m < e) {c : κ × β} (here : cases[m]? = some c) :
    segment cases s e = segment cases s m ++ c :: segment cases (m + 1) e := by
  have whole : e - s = (m - s) + ((e - (m + 1)) + 1) := by omega
  have rest : (cases.drop s).drop (m - s) = c :: cases.drop (m + 1) := by
    rw [List.drop_drop, show s + (m - s) = m by omega]
    obtain ⟨lt, rfl⟩ := List.getElem?_eq_some_iff.mp here
    exact List.drop_eq_getElem_cons lt
  rw [segment, whole, List.take_add, rest, List.take_succ_cons]
  rfl

theorem segment_cons {s e : Nat} (he : s < e) {c : κ × β}
    (here : cases[s]? = some c) : segment cases s e = c :: segment cases (s + 1) e := by
  rw [segment_split cases (Nat.le_refl s) he here, segment_self]
  rfl

end

section Sorted

variable [LinearOrder κ]

def Sorted (cases : List (κ × β)) : Prop := cases.Pairwise fun a b => a.1 < b.1

variable {cases : List (κ × β)} (sorted : Sorted cases)

include sorted

theorem Sorted.distinct : (cases.map Prod.fst).Nodup := List.pairwise_map.mpr (sorted.imp ne_of_lt)

omit sorted in
/-- **One comparison of a search.** -/
theorem lookup_split {l r : List (κ × β)} {c : κ × β} (sorted : Sorted (l ++ c :: r)) (k : κ) : (l ++ c :: r).lookup k =
      if k = c.1 then some c.2 else if k < c.1 then l.lookup k else r.lookup k := by
  obtain ⟨-, right, below⟩ := List.pairwise_append.mp sorted
  have above := (List.pairwise_cons.mp right).1
  rw [List.lookup_append, lookup_cons_ite]
  by_cases here : k = c.1
  · have left : l.lookup k = none := by
      apply lookup_eq_none
      intro d mem
      exact here ▸ (below d mem c List.mem_cons_self).ne'
    rw [if_pos here, if_pos here, left, Option.none_or]
  · rw [if_neg here, if_neg here]
    by_cases less : k < c.1
    · have right : r.lookup k = none := by
        apply lookup_eq_none
        intro d mem
        exact (less.trans (above d mem)).ne
      rw [if_pos less, right, Option.or_none]
    · have left : l.lookup k = none := by
        apply lookup_eq_none
        intro d mem
        exact ((below d mem c List.mem_cons_self).trans_le (not_lt.mp less)).ne'
      rw [if_neg less, left, Option.none_or]

theorem Sorted.segment (s e : Nat) : Sorted (segment cases s e) :=
  List.Pairwise.sublist ((List.take_sublist _ _).trans (List.drop_sublist _ _)) sorted

/-- **One comparison of a search** between two indices. -/
theorem lookup_segment {s m e : Nat} (hs : s ≤ m) (he : m < e) {c : κ × β} (here : cases[m]? = some c) (k : κ) :
    (segment cases s e).lookup k =
      if k = c.1 then some c.2
      else if k < c.1 then (segment cases s m).lookup k else (segment cases (m + 1) e).lookup k := by
  have parts := segment_split cases hs he here
  have sorted' := sorted.segment s e
  rw [parts] at sorted' ⊢
  exact lookup_split sorted' k

end Sorted

theorem lookup_rename [DecidableEq κ] [DecidableEq γ] {f : κ → γ} {cases : List (κ × β)} {k : κ}
    (apart : ∀ c ∈ cases, f k = f c.1 → k = c.1) : (cases.map fun c => (f c.1, c.2)).lookup (f k) = cases.lookup k := by
  induction cases with
  | nil => rfl
  | cons c rest ih =>
    obtain ⟨own, others⟩ := List.forall_mem_cons.mp apart
    rw [List.map_cons, lookup_cons_ite, lookup_cons_ite, ih others]
    by_cases here : k = c.1
    · rw [if_pos here, if_pos (congrArg f here)]
    · rw [if_neg here, if_neg fun same => here (own same)]

theorem lookup_map_self [DecidableEq κ] (f : κ → β) (keys : List κ) (k : κ) :
    (keys.map fun i => (i, f i)).lookup k = if k ∈ keys then some (f k) else none := by
  induction keys with
  | nil => rfl
  | cons i rest ih =>
    rw [List.map_cons, lookup_cons_ite, ih]
    by_cases here : k = i
    · simp [here]
    · simp [here]

theorem lookup_map_value [DecidableEq κ] (f : β → γ) (cases : List (κ × β)) (k : κ) :
    (cases.map fun c => (c.1, f c.2)).lookup k = (cases.lookup k).map f := by
  induction cases with
  | nil => rfl
  | cons c rest ih =>
    rw [List.map_cons, lookup_cons_ite, lookup_cons_ite, ih]
    split
    · rfl
    · rfl

/-! ## Hashed cases -/

/-- **A bucket has every case that a key with its hash can be.** -/
theorem lookup_bucket [DecidableEq κ] [DecidableEq γ] (hash : κ → γ) (cases : List (κ × β)) {k : κ}
    {h : γ} (own : hash k = h) : (cases.filter fun c => hash c.1 = h).lookup k = cases.lookup k := by
  induction cases with
  | nil => rfl
  | cons c rest ih =>
    rw [lookup_cons_ite]
    by_cases here : k = c.1
    · rw [List.filter_cons_of_pos (by simpa [← here] using own), lookup_cons_ite, if_pos here,
        if_pos here]
    · rw [if_neg here, List.filter_cons]
      split
      · rw [lookup_cons_ite, if_neg here]
        exact ih
      · exact ih

/-! ## Consecutive cases -/

def Consecutive : List (Int × β) → Prop
  | [] => True
  | [_] => True
  | a :: b :: rest => b.1 - a.1 = 1 ∧ Consecutive (b :: rest)

variable {first : Int × β} {rest : List (Int × β)} (consecutive : Consecutive (first :: rest))

include consecutive

theorem Consecutive.key {i : Nat} {c : Int × β} (here : (first :: rest)[i]? = some c) : c.1 = first.1 + i := by
  induction rest generalizing first i with
  | nil =>
    cases i with
    | zero => cases here; simp
    | succ i => cases here
  | cons second rest ih =>
    obtain ⟨step, tail⟩ := consecutive
    cases i with
    | zero => cases here; simp
    | succ i =>
      have key := ih tail here
      push_cast
      omega

/-- **The distance from the first key** is the case's index. -/
theorem lookup_consecutive (k : Int) : (first :: rest).lookup k =
      if first.1 ≤ k then ((first :: rest)[(k - first.1).toNat]?).map Prod.snd else none := by
  induction rest generalizing first with
  | nil =>
    rw [lookup_cons_ite]
    by_cases here : k = first.1
    · simp [here]
    · rw [if_neg here]
      by_cases le : first.1 ≤ k
      · obtain ⟨n, far⟩ : ∃ n, (k - first.1).toNat = n + 1 :=
          ⟨(k - first.1).toNat - 1, by omega⟩
        simp [far]
      · rw [if_neg le]
        rfl
  | cons second rest ih =>
    obtain ⟨step, tail⟩ := consecutive
    rw [lookup_cons_ite]
    by_cases here : k = first.1
    · simp [here]
    · rw [if_neg here, ih tail]
      by_cases le : first.1 ≤ k
      · have next : second.1 ≤ k := by omega
        have far : (k - first.1).toNat = (k - second.1).toNat + 1 := by omega
        rw [if_pos le, if_pos next, far, List.getElem?_cons_succ]
      · rw [if_neg le, if_neg (by omega)]

end Search
