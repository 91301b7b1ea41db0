import Mathlib.Logic.Basic
import Mathlib.Tactic.Common

/-!
# Systems with guarded steps

A system takes events one after another; an event it cannot take now has no step. Both rules are about runs whose
steps meet a condition: what such steps preserve holds where the run ends (`run_invariant`), and two conditions
that agree in every state of an invariant hold along the same runs (`along_congr`). The second turns a condition
that is enough for a safety property into one that is exactly it.
-/

namespace Effect

/-- A system: where it starts, and the step an event makes, if it can be taken. -/
structure System (σ ε : Type) where
  init : σ
  step : σ → ε → Option σ

namespace System

variable {σ ε : Type} (S : System σ ε)

/-- The state after a list of events, if every one of them could be taken. -/
def run : σ → List ε → Option σ
  | s, [] => some s
  | s, e :: es => (S.step s e).bind fun s' => run s' es

/-- Every event of the list, as far as they can be taken, meets the condition. -/
def Along (ok : σ → ε → Prop) : σ → List ε → Prop
  | _, [] => True
  | s, e :: es => ok s e ∧ ∀ s', S.step s e = some s' → Along ok s' es

instance decidableAlong {ok : σ → ε → Prop} [∀ s e, Decidable (ok s e)] :
    ∀ (es : List ε) (s : σ), Decidable (S.Along ok s es)
  | [], _ => .isTrue trivial
  | e :: es, s =>
    match step : S.step s e with
    | none => decidable_of_iff (ok s e) ⟨fun here => ⟨here, by simp [step]⟩, And.left⟩
    | some s' =>
      have : Decidable (S.Along ok s' es) := decidableAlong es s'
      decidable_of_iff (ok s e ∧ S.Along ok s' es) (and_congr_right fun _ => by simp [step])

@[simp] theorem run_nil (s : σ) : S.run s [] = some s := rfl

theorem run_cons (s : σ) (e : ε) (es : List ε) : S.run s (e :: es) = (S.step s e).bind fun s' => S.run s' es := rfl

variable {S} {ok : σ → ε → Prop} {inv : σ → Prop}

/-- **The invariant rule.** -/
theorem run_invariant (keeps : ∀ s e s', inv s → ok s e → S.step s e = some s' → inv s') :
    ∀ {es : List ε} {s s' : σ}, inv s → S.Along ok s es → S.run s es = some s' → inv s'
  | [], s, s', hs, _, h => by
    rw [run_nil] at h
    exact Option.some.inj h ▸ hs
  | e :: es, s, s', hs, along, h => by
    rw [run_cons] at h
    obtain ⟨s₁, step, rest⟩ := Option.bind_eq_some_iff.mp h
    exact run_invariant keeps (keeps s e s₁ hs along.1 step) (along.2 s₁ step) rest

/-- **Two conditions that agree where the invariant holds** hold along the same runs. -/
theorem along_congr {ok' : σ → ε → Prop} (agree : ∀ s e, inv s → (ok s e ↔ ok' s e))
    (keeps : ∀ s e s', inv s → ok s e → S.step s e = some s' → inv s') :
    ∀ {es : List ε} {s : σ}, inv s → (S.Along ok s es ↔ S.Along ok' s es)
  | [], _, _ => Iff.rfl
  | e :: es, s, hs => by
    constructor
    · rintro ⟨here, rest⟩
      refine ⟨(agree s e hs).mp here, fun s' step => ?_⟩
      exact (along_congr agree keeps (keeps s e s' hs here step)).mp (rest s' step)
    · rintro ⟨here, rest⟩
      have here' := (agree s e hs).mpr here
      refine ⟨here', fun s' step => ?_⟩
      exact (along_congr agree keeps (keeps s e s' hs here' step)).mpr (rest s' step)

theorem along_true : ∀ (es : List ε) (s : σ), S.Along (fun _ _ => True) s es
  | [], _ => trivial
  | _ :: es, _ => ⟨trivial, fun s' _ => along_true es s'⟩

theorem along_of_forall {ok : ε → Prop} : ∀ {es : List ε} {s : σ}, (∀ e ∈ es, ok e) → S.Along (fun _ e => ok e) s es
  | [], _, _ => trivial
  | e :: _, _, h =>
    ⟨h e (List.mem_cons_self ..), fun _ _ => along_of_forall fun e he => h e (List.mem_cons_of_mem _ he)⟩

end System

end Effect
