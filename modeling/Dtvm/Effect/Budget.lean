import Dtvm.Effect.Program

/-!
# Budgets

A program that only spends a budget does the same things whatever the budget, up to the point where it runs
out. So it has a **bill**: it stops at every budget, or it spends a fixed amount and leaves a fixed rest of the
state (`exists_bill`). Bills add up along a sequence, so collecting an amount before each part comes to the same
bill as collecting the sum at any one place (`exists_bill_paid`). `put : τ → Nat → σ` gives a state its budget.
-/

namespace Effect

variable {S : Signature} {α β σ τ ε : Type}

def Stops (r : Except ε α × σ) : Prop := ∃ e s, r = (.error e, s)

/-- What a computation costs: no budget is enough, or it spends `cost` and ends in `rest`. -/
inductive Bill (α τ : Type) where
  | stops
  | spends (cost : Nat) (a : α) (rest : τ)

def Bill.plus (n : Nat) : Bill α τ → Bill α τ
  | .stops => .stops
  | .spends cost a rest => .spends (n + cost) a rest

@[simp] theorem Bill.plus_zero (b : Bill α τ) : b.plus 0 = b := by
  cases b <;> simp [Bill.plus]

theorem Bill.plus_plus (m n : Nat) (b : Bill α τ) : (b.plus m).plus n = b.plus (n + m) := by
  cases b <;> simp [Bill.plus, Nat.add_assoc]

/-- From the rest `w`, the computation `f` comes to the bill, at every budget. -/
def Meters (put : τ → Nat → σ) (f : σ → Except ε α × σ) (w : τ) : Bill α τ → Prop
  | .stops => ∀ g, Stops (f (put w g))
  | .spends cost a rest => ∀ g, (cost ≤ g → f (put w g) = (.ok a, put rest (g - cost))) ∧
      (g < cost → Stops (f (put w g)))

section Sequence

variable {put : τ → Nat → σ} {handle : Program.Handler S σ ε} {w : τ}

/-- A sequence costs what its first part spends and what its second part then costs. -/
theorem Meters.bind {p : Program S α} {f : α → Program S β} {cost : Nat} {a : α} {rest : τ}
    {b : Bill β τ} (first : Meters put (p.run handle) w (.spends cost a rest))
    (second : Meters put ((f a).run handle) rest b) : Meters put ((p >>= f).run handle) w (b.plus cost) := by
  cases b with
  | stops =>
    intro g
    rcases Nat.lt_or_ge g cost with short | enough
    · obtain ⟨e, s, h⟩ := (first g).2 short
      exact ⟨e, s, Program.run_bind_error h f⟩
    · rw [Program.run_bind_ok ((first g).1 enough) f]
      exact second (g - cost)
  | spends cost' b rest' =>
    intro g
    refine ⟨fun enough => ?_, fun short => ?_⟩
    · rw [Program.run_bind_ok ((first g).1 (by omega)) f, (second (g - cost)).1 (by omega),
        Nat.sub_sub]
    · rcases Nat.lt_or_ge g cost with short' | enough
      · obtain ⟨e, s, h⟩ := (first g).2 short'
        exact ⟨e, s, Program.run_bind_error h f⟩
      · rw [Program.run_bind_ok ((first g).1 enough) f]
        exact (second (g - cost)).2 (by omega)

theorem Meters.bind_stops {p : Program S α} (f : α → Program S β) (first : Meters put (p.run handle) w .stops) :
    Meters put ((p >>= f).run handle) w .stops := by
  intro g
  obtain ⟨e, s, h⟩ := first g
  exact ⟨e, s, Program.run_bind_error h f⟩

theorem Meters.done (a : α) : Meters put ((Program.done a : Program S α).run handle) w (.spends 0 a w) :=
  fun g => ⟨fun _ => by simp, fun h => absurd h (Nat.not_lt_zero g)⟩

/-- **A program of metered operations is metered**: it has a bill. -/
theorem exists_bill {may : S.Op → Prop} (metered : ∀ o, may o → ∀ w, ∃ b, Meters put (handle o) w b)
    {p : Program S α} (h : Program.Within may p) : ∃ b, Meters put (p.run handle) w b := by
  induction p generalizing w with
  | done a => exact ⟨_, Meters.done a⟩
  | step o next ih =>
    obtain ⟨allowed, rest⟩ := h.of_step
    have one : ((Program.perform o).run handle) = handle o :=
      funext fun s => Program.run_perform handle o s
    obtain ⟨b, hb⟩ := metered o allowed w
    rw [← one] at hb
    change ∃ b, Meters put ((Program.perform o >>= next).run handle) w b
    cases b with
    | stops => exact ⟨.stops, hb.bind_stops next⟩
    | spends cost a w' =>
      obtain ⟨b', hb'⟩ := ih a (w := w') (rest a)
      exact ⟨b'.plus cost, hb.bind hb'⟩

end Sequence

/-! ## Collecting amounts along a sequence -/

def inOrder : List (Nat × Program S Unit) → Program S Unit
  | [] => pure ()
  | (_, p) :: rest => do p; inOrder rest

/-- The parts run in order, each after its amount is collected. -/
def paidInOrder (collect : Nat → Program S Unit) : List (Nat × Program S Unit) → Program S Unit
  | [] => pure ()
  | (n, p) :: rest => do collect n; p; paidInOrder collect rest

theorem inOrder_within {may : S.Op → Prop} : ∀ {parts : List (Nat × Program S Unit)},
    (∀ part ∈ parts, Program.Within may part.2) → Program.Within may (inOrder parts)
  | [], _ => .pure ()
  | _ :: _, within => .bind (within _ List.mem_cons_self) fun _ =>
      inOrder_within fun part hp => within part (List.mem_cons_of_mem _ hp)

theorem paidInOrder_eq (collect : Nat → Program S Unit) :
    ∀ parts : List (Nat × Program S Unit), paidInOrder collect parts =
      inOrder (parts.map fun part => (part.1, do collect part.1; part.2))
  | [] => rfl
  | (n, p) :: rest => by
    simp only [paidInOrder, List.map_cons, inOrder, bind_assoc, paidInOrder_eq collect rest]

theorem paidInOrder_within {may : S.Op → Prop} {collect : Nat → Program S Unit}
    {parts : List (Nat × Program S Unit)} (collects : ∀ n, Program.Within may (collect n))
    (within : ∀ part ∈ parts, Program.Within may part.2) : Program.Within may (paidInOrder collect parts) := by
  rw [paidInOrder_eq]
  refine inOrder_within fun paid mem => ?_
  obtain ⟨part, hpart, rfl⟩ := List.mem_map.mp mem
  exact .bind (collects _) fun _ => within part hpart

def amounts (parts : List (Nat × Program S Unit)) : Nat := (parts.map Prod.fst).sum

@[simp] theorem amounts_nil : amounts ([] : List (Nat × Program S Unit)) = 0 := rfl

@[simp] theorem amounts_cons (n : Nat) (p : Program S Unit) (rest : List (Nat × Program S Unit)) :
    amounts ((n, p) :: rest) = n + amounts rest := rfl

/-- **Collecting along the way adds exactly the sum to the bill.** -/
theorem exists_bill_paid {put : τ → Nat → σ} {handle : Program.Handler S σ ε} {may : S.Op → Prop}
    {collect : Nat → Program S Unit} (metered : ∀ o, may o → ∀ w, ∃ b, Meters put (handle o) w b)
    (collects : ∀ n w, Meters put ((collect n).run handle) w (.spends n () w)) :
    ∀ (parts : List (Nat × Program S Unit)), (∀ part ∈ parts, Program.Within may part.2) →
      ∀ w : τ, ∃ b : Bill Unit τ, Meters put ((inOrder parts).run handle) w b ∧
        Meters put ((paidInOrder collect parts).run handle) w (b.plus (amounts parts))
  | [], _, w => ⟨_, Meters.done (), by rw [amounts_nil, Bill.plus_zero]; exact Meters.done ()⟩
  | (n, p) :: rest, within, w => by
    obtain ⟨bp, hp⟩ := exists_bill metered (within (n, p) List.mem_cons_self) (w := w)
    cases bp with
    | stops =>
      refine ⟨.stops, hp.bind_stops fun _ => inOrder rest, ?_⟩
      exact (collects n w).bind (b := .stops) (hp.bind_stops fun _ => paidInOrder collect rest)
    | spends cost a w' =>
      obtain ⟨b, free, paid⟩ := exists_bill_paid metered collects rest
        (fun part hp => within part (List.mem_cons_of_mem _ hp)) w'
      refine ⟨b.plus cost, hp.bind free, ?_⟩
      have whole := (collects n w).bind (f := fun _ => do p; paidInOrder collect rest)
        (hp.bind paid)
      rw [Bill.plus_plus, Bill.plus_plus] at whole
      rw [Bill.plus_plus, amounts_cons, Nat.add_right_comm]
      exact whole

end Effect
