import Mathlib.Data.List.Basic

/-!
# Numbers in a text

A text that starts with a tag and goes on with numbers, a colon before each. Neither a decimal number nor
the tag has a colon in it, so the text determines the tag and the numbers (`fields_inj`).
-/

namespace Text

def fields (tag : String) (numbers : List Nat) : String :=
  numbers.foldl (fun text n => text ++ ":" ++ toString n) tag

def colons (numbers : List Nat) : List Char := numbers.flatMap fun n => ':' :: Nat.toDigits 10 n

theorem toList_fields (tag : String) (numbers : List Nat) :
    (fields tag numbers).toList = tag.toList ++ colons numbers := by
  induction numbers generalizing tag with
  | nil => exact (List.append_nil _).symm
  | cons n numbers ih =>
    have digits : (toString n).toList = Nat.toDigits 10 n := Nat.toList_repr
    rw [fields, List.foldl_cons, ← fields, ih, String.toList_append, String.toList_append, digits,
      List.append_assoc, List.append_assoc]
    rfl

theorem colon_not_mem_toDigits (n : Nat) : ':' ∉ Nat.toDigits 10 n := by
  intro mem
  have digit := Nat.isDigit_of_mem_toDigits (by decide) (by decide) mem
  revert digit
  decide

theorem append_colon_inj {xs ys : List Char} (hx : ':' ∉ xs) (hy : ':' ∉ ys) {r s : List Char}
    (hr : r = [] ∨ r.head? = some ':') (hs : s = [] ∨ s.head? = some ':') (eq : xs ++ r = ys ++ s) :
    xs = ys ∧ r = s := by
  induction xs generalizing ys with
  | nil =>
    cases ys with
    | nil => exact ⟨rfl, eq⟩
    | cons y ys =>
      rw [List.nil_append] at eq
      subst eq
      rcases hr with none | colon
      · cases none
      · cases colon
        exact absurd List.mem_cons_self hy
  | cons x xs ih =>
    cases ys with
    | nil =>
      rw [List.nil_append] at eq
      subst eq
      rcases hs with none | colon
      · cases none
      · cases colon
        exact absurd List.mem_cons_self hx
    | cons y ys =>
      rw [List.cons_append, List.cons_append, List.cons.injEq] at eq
      rw [List.mem_cons, not_or] at hx hy
      obtain ⟨rfl, same⟩ := ih hx.2 hy.2 eq.2
      exact ⟨by rw [eq.1], same⟩

theorem colons_head (numbers : List Nat) : colons numbers = [] ∨ (colons numbers).head? = some ':' := by
  cases numbers with
  | nil => exact .inl rfl
  | cons n numbers => exact .inr rfl

theorem colons_inj {ns ms : List Nat} (eq : colons ns = colons ms) : ns = ms := by
  induction ns generalizing ms with
  | nil =>
    cases ms with
    | nil => rfl
    | cons m ms => cases eq
  | cons n ns ih =>
    cases ms with
    | nil => cases eq
    | cons m ms =>
      have rest : Nat.toDigits 10 n ++ colons ns = Nat.toDigits 10 m ++ colons ms := by
        simpa only [colons, List.flatMap_cons, List.cons_append, List.cons.injEq, true_and] using eq
      obtain ⟨digits, tail⟩ := append_colon_inj (colon_not_mem_toDigits n) (colon_not_mem_toDigits m)
        (colons_head ns) (colons_head ms) rest
      have same : n = m := by
        have value := congrArg (fun cs => Nat.ofDigitChars 10 cs 0) digits
        simpa only [Nat.ofDigitChars_ten_toDigits] using value
      rw [same, ih tail]

theorem fields_inj {tag tag' : String} (h : ':' ∉ tag.toList) (h' : ':' ∉ tag'.toList)
    {ns ms : List Nat} (eq : fields tag ns = fields tag' ms) : tag = tag' ∧ ns = ms := by
  have chars := congrArg String.toList eq
  rw [toList_fields, toList_fields] at chars
  obtain ⟨tags, numbers⟩ := append_colon_inj h h' (colons_head ns) (colons_head ms) chars
  exact ⟨String.toList_injective tags, colons_inj numbers⟩

end Text
