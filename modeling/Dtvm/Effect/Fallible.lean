import Mathlib.Logic.Basic

/-!
# Computations that fail

How to take a computation that succeeds apart, what two computations have in common that fail alike with
other errors (`toOption`), and what holds of the results of a computation (`Ends`).
-/

namespace Effect

variable {ε α β : Type}

variable {x : Except ε α}

theorem bind_eq_ok {f : α → Except ε β} {b : β} : x >>= f = .ok b ↔ ∃ a, x = .ok a ∧ f a = .ok b := by
  cases x with
  | error e => exact ⟨nofun, nofun⟩
  | ok a => exact ⟨fun h => ⟨a, rfl, h⟩, fun ⟨_, same, h⟩ => Except.ok.inj same ▸ h⟩

theorem ite_error_eq_ok {c : Prop} [Decidable c] {e : ε} {a : α} :
    (if c then .error e else x) = .ok a ↔ ¬ c ∧ x = .ok a := by
  by_cases h : c
  · rw [if_pos h]
    exact ⟨nofun, fun ⟨no, _⟩ => absurd h no⟩
  · rw [if_neg h]
    exact ⟨fun ok => ⟨h, ok⟩, And.right⟩

@[simp] theorem toOption_ok (a : α) : (Except.ok a : Except ε α).toOption = some a := rfl

@[simp] theorem toOption_error (e : ε) : (Except.error e : Except ε α).toOption = none := rfl

@[simp] theorem toOption_bind (x : Except ε α) (f : α → Except ε β) :
    (x >>= f).toOption = x.toOption.bind fun a => (f a).toOption := by
  cases x <;> rfl

theorem toOption_ite (c : Prop) [Decidable c] (x y : Except ε α) :
    (if c then x else y).toOption = if c then x.toOption else y.toOption := apply_ite _ _ _ _

theorem toOption_eq_some {a : α} : x.toOption = some a ↔ x = .ok a := by
  cases x with
  | error e => exact ⟨nofun, nofun⟩
  | ok b => exact ⟨fun h => congrArg _ (Option.some.inj h), fun h => congrArg _ (Except.ok.inj h)⟩

def stopOf : Except ε α → Option ε
  | .error e => some e
  | .ok _ => none

theorem stopOf_eq_some {e : ε} : stopOf x = some e ↔ x = .error e := by
  cases x with
  | error e' => exact ⟨fun h => congrArg _ (Option.some.inj h), fun h => congrArg _ (Except.error.inj h)⟩
  | ok a => exact ⟨nofun, nofun⟩

/-! ## Partial correctness -/

/-- Where a computation succeeds, its result meets the condition. -/
def Ends (x : Except ε α) (post : α → Prop) : Prop := ∀ a, x = .ok a → post a

section Ends

variable {x : Except ε α} {f : α → Except ε β} {post post' : α → Prop} {next : β → Prop}

theorem ends_ok {a : α} (h : post a) : Ends (.ok a : Except ε α) post :=
  fun _ same => Except.ok.inj same ▸ h

theorem ends_error (e : ε) : Ends (.error e) post := nofun

theorem ends_bind (h : Ends x post) (go : ∀ a, post a → Ends (f a) next) : Ends (x >>= f) next := by
  intro b hb
  obtain ⟨a, ha, hb⟩ := bind_eq_ok.mp hb
  exact go a (h a ha) b hb

theorem ends_of_ok {a : α} (h : x = .ok a) (go : Ends (f a) next) : Ends (x >>= f) next := h ▸ go

theorem ends_after (go : ∀ a, Ends (f a) next) : Ends (x >>= f) next := by
  intro b hb
  obtain ⟨a, -, hb⟩ := bind_eq_ok.mp hb
  exact go a b hb

theorem ends_mono (h : Ends x post) (sub : ∀ a, post a → post' a) : Ends x post' :=
  fun a ha => sub a (h a ha)

theorem ends_cases {c : Prop} [Decidable c] {y : Except ε α} (hx : c → Ends x post) (hy : ¬ c → Ends y post) :
    Ends (if c then x else y) post := by
  by_cases h : c
  · exact (if_pos h).symm ▸ hx h
  · exact (if_neg h).symm ▸ hy h

theorem ends_ite {c : Prop} [Decidable c] {y : Except ε α} (hx : Ends x post) (hy : Ends y post) :
    Ends (if c then x else y) post := ends_cases (fun _ => hx) fun _ => hy

theorem ends_check {c : Prop} [Decidable c] {e : ε} (go : ¬ c → Ends x post) :
    Ends (if c then .error e else x) post := ends_cases (fun _ => ends_error e) go

end Ends

/-! ## Results and errors -/

/-- The result meets the one condition, or the error the other. -/
def Yields (x : Except ε α) (post : α → Prop) (fail : ε → Prop) : Prop :=
  match x with
  | .ok a => post a
  | .error e => fail e

section Yields

variable {x : Except ε α} {f : α → Except ε β} {post post' : α → Prop} {next : β → Prop} {fail fail' : ε → Prop}

theorem yields_ok {a : α} (h : post a) : Yields (.ok a) post fail := h

theorem yields_error {e : ε} (h : fail e) : Yields (.error e) post fail := h

variable (h : Yields x post fail)

include h

theorem yields_bind (go : ∀ a, post a → Yields (f a) next fail) : Yields (x >>= f) next fail := by
  cases x with
  | ok a => exact go a h
  | error e => exact h

omit h in
theorem yields_of_ok {a : α} (h : x = .ok a) (go : Yields (f a) next fail) : Yields (x >>= f) next fail := h ▸ go

theorem yields_mono (ok : ∀ a, post a → post' a) (error : ∀ e, fail e → fail' e) : Yields x post' fail' := by
  cases x with
  | ok a => exact ok a h
  | error e => exact error e h

theorem yields_imp (ok : ∀ a, post a → post' a) : Yields x post' fail :=
  yields_mono h ok fun _ h => h

omit h in
theorem yields_cases {c : Prop} [Decidable c] {y : Except ε α} (hx : c → Yields x post fail)
    (hy : ¬ c → Yields y post fail) : Yields (if c then x else y) post fail := by
  by_cases h : c
  · exact (if_pos h).symm ▸ hx h
  · exact (if_neg h).symm ▸ hy h

omit h in
theorem yields_check {c : Prop} [Decidable c] {e : ε} (bad : c → fail e) (go : ¬ c → Yields x post fail) :
    Yields (if c then .error e else x) post fail := yields_cases (fun h => yields_error (bad h)) go

theorem Yields.and (also : Ends x post') : Yields x (fun a => post' a ∧ post a) fail := by
  cases x with
  | ok a => exact ⟨also a rfl, h⟩
  | error e => exact h

theorem Yields.ok {a : α} (result : x = .ok a) : post a := by
  rw [result] at h
  exact h

theorem Yields.error {e : ε} (result : x = .error e) : fail e := by
  rw [result] at h
  exact h

end Yields

end Effect
