import Dtvm.Effect.Program

/-!
# Contracts

What a run does on its way, and not only where it ends. `visited` lists the operations a run performs,
each with the state it is performed in. A **contract** says what holds whenever an operation is
performed, of a value with the state it is returned in, and of a stop with the state it happens in
(`Obeys`). Contracts compose along a sequence (`Obeys.bind`), follow from an invariant of the single
operations (`Obeys.of_within`), and are read back as facts about runs (`Obeys.visited`,
`Obeys.returns`, `Obeys.stops`).
-/

namespace Effect.Program

variable {S : Signature} {α β σ τ ε : Type}

/-- The operations a run performs, with the states it performs them in. -/
def visited (handle : Handler S σ ε) : Program S α → σ → List (S.Op × σ)
  | .done _, _ => []
  | .step o next, s => (o, s) ::
    match handle o s with
    | (.ok a, s') => (next a).visited handle s'
    | (.error _, _) => []

def Obeys (handle : Handler S σ ε) (during : S.Op → σ → Prop) (post : α → σ → Prop)
    (stop : ε → σ → Prop) : Program S α → σ → Prop
  | .done a, s => post a s
  | .step o next, s => during o s ∧
    match handle o s with
    | (.ok a, s') => (next a).Obeys handle during post stop s'
    | (.error e, s') => stop e s'

namespace Obeys

variable {handle : Handler S σ ε} {during : S.Op → σ → Prop} {post : α → σ → Prop}
  {stop : ε → σ → Prop} {p : Program S α} {s s' : σ}

/-! ## What a contract says of runs -/

section

variable (h : Obeys handle during post stop p s)

include h

theorem visited : ∀ v ∈ p.visited handle s, during v.1 v.2 := by
  induction p generalizing s with
  | done a =>
    intro v mem
    cases mem
  | step o next ih =>
    rw [Obeys] at h
    obtain ⟨here, rest⟩ := h
    intro v mem
    rw [Program.visited] at mem
    rcases List.mem_cons.mp mem with rfl | mem
    · exact here
    · revert rest mem
      rcases handle o s with ⟨_ | a, s'⟩
      · exact fun _ mem => nomatch mem
      · exact fun rest mem => ih a rest v mem

theorem returns {a : α} (returned : p.run handle s = (.ok a, s')) : post a s' := by
  induction p generalizing s with
  | done b =>
    cases returned
    exact h
  | step o next ih =>
    rw [Obeys] at h
    obtain ⟨-, rest⟩ := h
    rw [run] at returned
    revert rest returned
    rcases handle o s with ⟨_ | b, t⟩
    · rintro ⟨⟩
    · exact fun returned rest => ih b rest returned

theorem stops {e : ε} (stopped : p.run handle s = (.error e, s')) : stop e s' := by
  induction p generalizing s with
  | done b => cases stopped
  | step o next ih =>
    rw [Obeys] at h
    obtain ⟨-, rest⟩ := h
    rw [run] at stopped
    revert rest stopped
    rcases handle o s with ⟨_ | b, t⟩
    · rintro stopped rest
      cases stopped
      exact rest
    · exact fun stopped rest => ih b rest stopped

end

theorem ends {inv : σ → Prop} (h : Obeys handle during (fun _ => inv) (fun _ => inv) p s) : inv (p.run handle s).2 := by
  cases end_ : p.run handle s with
  | mk r s' =>
    cases r with
    | ok a => exact h.returns end_
    | error e => exact h.stops end_

/-! ## Rules -/

theorem perform {o : S.Op} {post : S.Ans o → σ → Prop} (here : during o s)
    (answered : ∀ a s', handle o s = (.ok a, s') → post a s')
    (stopped : ∀ e s', handle o s = (.error e, s') → stop e s') : Obeys handle during post stop (perform o) s := by
  rw [Program.perform, Obeys]
  refine ⟨here, ?_⟩
  cases result : handle o s with
  | mk r s' =>
    cases r with
    | ok a => exact answered a s' result
    | error e => exact stopped e s' result

theorem bind {mid : α → σ → Prop} {f : α → Program S β} {post : β → σ → Prop} (h : Obeys handle during mid stop p s)
    (next : ∀ a s', mid a s' → Obeys handle during post stop (f a) s') : Obeys handle during post stop (p >>= f) s := by
  induction p generalizing s with
  | done a => exact next a s h
  | step o rest ih =>
    rw [Obeys] at h
    obtain ⟨here, rest⟩ := h
    rw [step_bind, Obeys]
    refine ⟨here, ?_⟩
    revert rest
    rcases handle o s with ⟨_ | a, s'⟩
    · exact id
    · exact fun rest => ih a rest

theorem imp {during' : S.Op → σ → Prop} {post' : α → σ → Prop} {stop' : ε → σ → Prop}
    (h : Obeys handle during post stop p s) (on : ∀ o s, during o s → during' o s)
    (after : ∀ a s, post a s → post' a s) (failed : ∀ e s, stop e s → stop' e s) :
    Obeys handle during' post' stop' p s := by
  induction p generalizing s with
  | done a => exact after a s h
  | step o rest ih =>
    rw [Obeys] at h
    obtain ⟨here, rest⟩ := h
    rw [Obeys]
    refine ⟨on o s here, ?_⟩
    revert rest
    rcases handle o s with ⟨e | a, s'⟩
    · exact failed e s'
    · exact fun rest => ih a rest

/-- **From the operations to the program**: an invariant that every allowed operation keeps. -/
theorem of_within {may : S.Op → Prop} {inv : σ → Prop} (within : Within may p) (start : inv s)
    (on : ∀ o s, may o → inv s → during o s) (keeps : ∀ o s, may o → inv s → inv (handle o s).2)
    (failed : ∀ o s e s', may o → inv s → handle o s = (.error e, s') → stop e s') :
    Obeys handle during (fun _ => inv) stop p s := by
  induction p generalizing s with
  | done a => exact start
  | step o next ih =>
    obtain ⟨allowed, rest⟩ := within.of_step
    rw [Obeys]
    refine ⟨on o s allowed start, ?_⟩
    have kept := keeps o s allowed start
    cases result : handle o s with
    | mk r s' =>
      rw [result] at kept
      cases r with
      | ok a => exact ih a (rest a) kept
      | error e => exact failed o s e s' allowed start result

end Obeys

end Effect.Program
