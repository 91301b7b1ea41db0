import Dtvm.Wasm.Starts

/-!
# The history of a control block

A control block is known by the address it starts at. What is below it stays the same while it is open
(`Visited.opened`), and the `else` and the `end` that belong to it are unique.
-/

namespace Dtvm.Wasm

open Effect

def ControlBlock.fresh (b : ControlBlock) : ControlBlock :=
  { b with elsePtr := none, stackPolymorphic := false }

namespace FunctionLoader

variable {ctx : ModuleContext} {fn : CodeEntry} {s s' t : FunctionLoader} {i : Instr} {n : Nat} {wide : Bool}

abbrev blocks (s : FunctionLoader) : List ControlBlock := s.typing.controlBlocks

theorem Visited.induct {P : FunctionLoader → Prop} (h : Visited ctx fn s) (init : P (start fn))
    (turn : ∀ {s i n wide s'}, Visited ctx fn s → s.Turn ctx fn i n wide s' → P s → P s') : P s := by
  induction h with
  | refl => exact init
  | tail before next ih =>
    obtain ⟨i, n, wide, here⟩ := Next.turn next
    exact turn before here ih

/-! ## The order of the blocks -/

theorem cons_suffix_cons {α : Type} {a b : α} {l m : List α} (h : a :: l <:+ b :: m) : a = b ∧ l = m ∨ a :: l <:+ m :=
  (List.suffix_cons_iff.mp h).imp_left List.cons.inj

theorem cons_suffix_singleton {α : Type} {a b : α} {l : List α} (h : a :: l <:+ [b]) : a = b ∧ l = [] :=
  (cons_suffix_cons h).resolve_right fun none => absurd (List.suffix_nil.mp none) (List.cons_ne_nil _ _)

/-- Inner blocks start later, and the block below all others is the function. -/
structure BlocksOrdered (bs : List ControlBlock) (ptr : Nat) : Prop where
  sorted : bs.Pairwise fun b c => c.startPtr < b.startPtr
  started : ∀ b ∈ bs, b.startPtr ≤ ptr
  function : ∀ {b below}, (b :: below) <:+ bs → (b.labelType = .function ↔ below = [])
  entry : ∀ b ∈ bs, b.labelType = .function → b.startPtr = 0

namespace BlocksOrdered

variable {b b' : ControlBlock} {bs : List ControlBlock} {ptr ptr' : Nat}

theorem mono (h : BlocksOrdered bs ptr) (le : ptr ≤ ptr') : BlocksOrdered bs ptr' :=
  { h with started := fun b mem => Nat.le_trans (h.started b mem) le }

theorem tail (h : BlocksOrdered (b :: bs) ptr) : BlocksOrdered bs ptr where
  sorted := h.sorted.of_cons
  started c mem := h.started c (List.mem_cons_of_mem b mem)
  function suffix := h.function (suffix.trans (List.suffix_cons b bs))
  entry c mem := h.entry c (List.mem_cons_of_mem b mem)

theorem replace (h : BlocksOrdered (b :: bs) ptr) (start : b'.startPtr = b.startPtr)
    (label : b'.labelType = b.labelType) : BlocksOrdered (b' :: bs) ptr where
  sorted := List.pairwise_cons.mpr
    ⟨fun c mem => start.symm ▸ (List.pairwise_cons.mp h.sorted).1 c mem, h.sorted.of_cons⟩
  started c mem := by
    obtain rfl | mem := List.mem_cons.mp mem
    · rw [start]
      exact h.started b List.mem_cons_self
    · exact h.started c (List.mem_cons_of_mem b mem)
  function suffix := by
    obtain ⟨rfl, rfl⟩ | suffix := cons_suffix_cons suffix
    · rw [label]
      exact h.function (List.suffix_refl _)
    · exact h.tail.function suffix
  entry c mem function := by
    obtain rfl | mem := List.mem_cons.mp mem
    · rw [start]
      exact h.entry b List.mem_cons_self (label ▸ function)
    · exact h.tail.entry c mem function

theorem push (h : BlocksOrdered bs ptr) (below : bs ≠ []) (start : ptr < b.startPtr) (le : b.startPtr ≤ ptr')
    (label : b.labelType ≠ .function) : BlocksOrdered (b :: bs) ptr' where
  sorted := List.pairwise_cons.mpr ⟨fun c mem => Nat.lt_of_le_of_lt (h.started c mem) start, h.sorted⟩
  started c mem := by
    obtain rfl | mem := List.mem_cons.mp mem
    · exact le
    · exact Nat.le_trans (h.started c mem) (by omega)
  function suffix := by
    obtain ⟨rfl, rfl⟩ | suffix := cons_suffix_cons suffix
    · exact ⟨fun function => absurd function label, fun none => absurd none below⟩
    · exact h.function suffix
  entry c mem function := by
    obtain rfl | mem := List.mem_cons.mp mem
    · exact absurd function label
    · exact h.entry c mem function

end BlocksOrdered

/-- An instruction that opens a block is as long as its opcode and a block type. -/
theorem decode_opens_length {bytes : List UInt8} (h : decode bytes = some (i, n)) (opens : i.opens.isSome) : n = 2 := by
  obtain ⟨_, _, k, -, -, immediates, rfl⟩ := decode_inv h
  cases i with
  | block t | loop t | «if» t =>
    obtain ⟨_, -, h⟩ := Option.bind_eq_some_iff.mp immediates
    exact congrArg (· + 1) (Prod.ext_iff.mp (Option.some.inj h)).2.symm
  | _ => cases opens

theorem opens_label {label : LabelType} {type : BlockType} (h : i.opens = some (label, type)) : label ≠ .function := by
  cases i with
  | block | loop | «if» => cases h; exact nofun
  | _ => cases h

section

variable (h : Visited ctx fn s)

include h

theorem Visited.ordered : BlocksOrdered s.blocks s.ptr ∧ (s.blocks = [] → s.code.length ≤ s.ptr) := by
  refine h.induct (P := fun s => BlocksOrdered s.blocks s.ptr ∧ (s.blocks = [] → s.code.length ≤ s.ptr))
    ⟨⟨List.pairwise_singleton _ _, ?_, ?_, ?_⟩, nofun⟩ ?_
  · intro b mem
    obtain rfl := List.mem_singleton.mp mem
    exact Nat.le_refl _
  · intro b below suffix
    obtain ⟨rfl, rfl⟩ := cons_suffix_singleton suffix
    exact ⟨fun _ => rfl, fun _ => rfl⟩
  · intro b mem _
    obtain rfl := List.mem_singleton.mp mem
    rfl
  intro s i n wide s' visited turn ⟨ordered, closed⟩
  obtain ⟨b, bs, here⟩ : ∃ b bs, s.blocks = b :: bs := by
    cases here : s.blocks with
    | nil => exact absurd turn.not_at_end (by have := closed here; omega)
    | cons b bs => exact ⟨b, bs, rfl⟩
  have ordered' := ordered.mono (Nat.le_of_lt turn.lt)
  rw [here] at ordered ordered'
  generalize blocks' : s'.blocks = bs'
  have reblocks : Reblocks s.ptr i (b :: bs) bs' := blocks' ▸ i.check_blocks ctx fn _ _ here _ turn.checked
  cases reblocks with
  | opens opens size num =>
    have length := decode_opens_length turn.decoded (by rw [opens]; rfl)
    have ptr := turn.ptr
    refine ⟨ordered.push (List.cons_ne_nil _ _) ?_ ?_ (opens_label opens), nofun⟩
    · show s.ptr < s.ptr + 2
      omega
    · show s.ptr + 2 ≤ s'.ptr
      omega
  | «else» label first | stays plain polymorphic => exact ⟨ordered'.replace rfl rfl, nofun⟩
  | «end» =>
    refine ⟨ordered'.tail, fun none => ?_⟩
    obtain ⟨v', ended, checked⟩ := bind_eq_ok.mp turn.checked
    have function := (ordered.function (List.suffix_refl _)).mpr none
    have last := (s.typing.endBlock_blocks here _ _ ended).2.1 function
    rw [turn.code_length, turn.ptr]
    exact of_decide_eq_true last.2

theorem Visited.reblocks (turn : s.Turn ctx fn i n wide s') :
    ∃ b bs, s.blocks = b :: bs ∧ Reblocks s.ptr i (b :: bs) s'.blocks := by
  cases here : s.blocks with
  | nil => exact absurd turn.not_at_end (by have := h.ordered.2 here; omega)
  | cons b bs => exact ⟨b, bs, rfl, i.check_blocks ctx fn _ _ here _ turn.checked⟩

/-! ## Where a block was opened and where its `else` was -/

/-- **A block was opened at its start**, and what was below it then still is. -/
theorem Visited.opened : ∀ {b below}, (b :: below) <:+ s.blocks →
    ∃ s₀, Visited ctx fn s₀ ∧ Reaches ctx fn s₀ s ∧ s₀.ptr = b.startPtr ∧ s₀.blocks = b.fresh :: below := by
  refine h.induct (P := fun s => ∀ {b below}, (b :: below) <:+ s.blocks → ∃ s₀, Visited ctx fn s₀ ∧
    Reaches ctx fn s₀ s ∧ s₀.ptr = b.startPtr ∧ s₀.blocks = b.fresh :: below) ?_ ?_
  · intro b below suffix
    obtain ⟨rfl, rfl⟩ := cons_suffix_singleton suffix
    exact ⟨start fn, .refl, .refl, rfl, rfl⟩
  intro s i n wide s' visited turn ih b below suffix
  obtain ⟨c, bs, here, reblocks⟩ := visited.reblocks turn
  -- a block that was there before this turn
  have before {b below} (suffix : (b :: below) <:+ s.blocks) : ∃ s₀, Visited ctx fn s₀ ∧
      Reaches ctx fn s₀ s' ∧ s₀.ptr = b.startPtr ∧ s₀.blocks = b.fresh :: below := by
    obtain ⟨s₀, visited₀, reaches, ptr, opened⟩ := ih suffix
    exact ⟨s₀, visited₀, reaches.tail turn.next, ptr, opened⟩
  rw [here] at before
  generalize blocks' : s'.blocks = bs' at reblocks suffix
  cases reblocks with
  | opens opens size num =>
    obtain ⟨rfl, rfl⟩ | suffix := cons_suffix_cons suffix
    · have length := decode_opens_length turn.decoded (by rw [opens]; rfl)
      exact ⟨s', visited.tail turn, .refl, length ▸ turn.ptr, blocks'⟩
    · exact before suffix
  | «else» label first | stays plain polymorphic =>
    obtain ⟨rfl, rfl⟩ | suffix := cons_suffix_cons suffix
    · have top := before (List.suffix_refl (c :: below))
      exact top
    · exact before (suffix.trans (List.suffix_cons _ _))
  | «end» => exact before (suffix.trans (List.suffix_cons _ _))

/-- **A block is known by its start**, and so is what is below it. -/
theorem Visited.same_block (h' : Visited ctx fn s') {b b' : ControlBlock}
    {below below' : List ControlBlock} (here : (b :: below) <:+ s.blocks) (here' : (b' :: below') <:+ s'.blocks)
    (start : b.startPtr = b'.startPtr) : b.fresh = b'.fresh ∧ below = below' := by
  obtain ⟨s₀, visited₀, -, ptr, opened⟩ := h.opened here
  obtain ⟨s₁, visited₁, -, ptr₁, opened₁⟩ := h'.opened here'
  obtain rfl := visited₀.eq_of_ptr visited₁ (ptr.trans (start.trans ptr₁.symm))
  exact List.cons.inj (opened.symm.trans opened₁)

/-- **The `else` of a block** is where the block says it is. -/
theorem Visited.elsed : ∀ {b below q}, (b :: below) <:+ s.blocks → b.elsePtr = some q →
    ∃ s₁ b₁, Visited ctx fn s₁ ∧ s₁.ptr = q ∧ decode s₁.rest = some (.else, 1) ∧ s₁.blocks = b₁ :: below ∧
      b₁.startPtr = b.startPtr ∧ b₁.labelType = .if := by
  refine h.induct (P := fun s => ∀ {b below q}, (b :: below) <:+ s.blocks → b.elsePtr = some q →
    ∃ s₁ b₁, Visited ctx fn s₁ ∧ s₁.ptr = q ∧ decode s₁.rest = some (.else, 1) ∧ s₁.blocks = b₁ :: below ∧
      b₁.startPtr = b.startPtr ∧ b₁.labelType = .if) ?_ ?_
  · intro b below q suffix
    obtain ⟨rfl, rfl⟩ := cons_suffix_singleton suffix
    exact nofun
  intro s i n wide s' visited turn ih b below q suffix at_q
  obtain ⟨c, bs, here, reblocks⟩ := visited.reblocks turn
  rw [here] at ih
  generalize s'.blocks = bs' at reblocks suffix
  cases reblocks with
  | opens opens size num =>
    obtain ⟨rfl, rfl⟩ | suffix := cons_suffix_cons suffix
    · cases at_q
    · exact ih suffix at_q
  | «else» label first =>
    obtain ⟨rfl, rfl⟩ | suffix := cons_suffix_cons suffix
    · obtain rfl := decode_bare_length turn.decoded rfl
      exact ⟨s, c, visited, Option.some.inj at_q, turn.decoded, here, rfl, label⟩
    · exact ih (suffix.trans (List.suffix_cons _ _)) at_q
  | «end» => exact ih (suffix.trans (List.suffix_cons _ _)) at_q
  | stays plain polymorphic =>
    obtain ⟨rfl, rfl⟩ | suffix := cons_suffix_cons suffix
    · have top := @ih c below q (List.suffix_refl _) at_q
      exact top
    · exact ih (suffix.trans (List.suffix_cons _ _)) at_q

/-! ## What becomes of a block -/

omit h in
/-- What holds of the block that starts at an address and does not depend on the flag that is set in dead
code, nor on an `else` that comes first, holds as long as the block is open. -/
theorem Reaches.block {P : ControlBlock → Prop} {a : Nat} (h : Reaches ctx fn s s') (visited : Visited ctx fn s)
    (started : a ≤ s.ptr) (here : ∀ c ∈ s.blocks, c.startPtr = a → P c)
    (stable : ∀ c e polymorphic, c.elsePtr = e ∨ c.elsePtr = none → P c →
      P { c with elsePtr := e, stackPolymorphic := polymorphic }) :
    ∀ c ∈ s'.blocks, c.startPtr = a → P c := by
  induction h with
  | refl => exact here
  | @tail s₁ s₂ before next ih =>
    obtain ⟨i, n, wide, turn⟩ := Next.turn next
    have visited₁ : Visited ctx fn s₁ := Relation.ReflTransGen.trans visited before
    have started₁ : a ≤ s₁.ptr := Nat.le_trans started (Reaches.ptr_le before)
    obtain ⟨b, bs, here₁, reblocks⟩ := visited₁.reblocks turn
    rw [here₁] at ih
    generalize s₂.blocks = bs' at reblocks
    intro c mem starts
    cases reblocks with
    | opens opens size num =>
      obtain rfl | mem := List.mem_cons.mp mem
      · exact absurd (show s₁.ptr + 2 = a from starts) (by omega)
      · exact ih c mem starts
    | «else» label first =>
      obtain rfl | mem := List.mem_cons.mp mem
      · exact stable b _ _ (.inr first) (ih b List.mem_cons_self starts)
      · exact ih c (List.mem_cons_of_mem b mem) starts
    | «end» => exact ih c (List.mem_cons_of_mem b mem) starts
    | stays plain polymorphic =>
      obtain rfl | mem := List.mem_cons.mp mem
      · exact stable b _ _ (.inl rfl) (ih b List.mem_cons_self starts)
      · exact ih c (List.mem_cons_of_mem b mem) starts

/-! ## Ends -/

/-- A function that is accepted has a turn for every visited state with an open block. -/
theorem Visited.next (loaded : load ctx fn = .ok t) (some : s.blocks ≠ []) :
    ∃ i n wide s', s.Turn ctx fn i n wide s' ∧ Reaches ctx fn s' t := by
  obtain rfl | ⟨s', next, rest⟩ := Relation.ReflTransGen.cases_head (h.reaches_end loaded)
  · exact absurd (load_eq_ok loaded).2.1 some
  · obtain ⟨i, n, wide, turn⟩ := Next.turn next
    exact ⟨i, n, wide, s', turn, rest⟩

theorem Visited.turn_at (loaded : load ctx fn = .ok t) (some : s.blocks ≠ [])
    (decoded : decode s.rest = .some (i, n)) : ∃ wide s', s.Turn ctx fn i n wide s' ∧ Reaches ctx fn s' t := by
  obtain ⟨i', n', wide, s', turn, rest⟩ := h.next loaded some
  obtain ⟨rfl, rfl⟩ := Prod.ext_iff.mp (Option.some.inj (decoded.symm.trans turn.decoded))
  exact ⟨wide, s', turn, rest⟩

end

variable (ctx fn) in
/-- The block that starts at `a` ends at `p`, and its `else` is at `e`. -/
def IsEnd (a p : Nat) (e : Option Nat) : Prop :=
  ∃ s b bs, Visited ctx fn s ∧ s.ptr = p ∧ s.blocks = b :: bs ∧ b.startPtr = a ∧ b.elsePtr = e ∧
    decode s.rest = some (.end, 1)

section Ends

variable (loaded : load ctx fn = .ok t) {b b' : ControlBlock} {bs bs' : List ControlBlock}

include loaded

theorem Reaches.gone (visited : Visited ctx fn s) (here : s.blocks = b :: bs)
    (ends : decode s.rest = some (.end, 1)) (h : Reaches ctx fn s s') :
    s = s' ∨ ∀ c ∈ s'.blocks, c.startPtr ≠ b.startPtr := by
  obtain rfl | ⟨s₁, next, rest⟩ := Relation.ReflTransGen.cases_head h
  · exact .inl rfl
  obtain ⟨wide, s₂, turn, -⟩ := visited.turn_at loaded (by rw [here]; exact List.cons_ne_nil _ _) ends
  obtain rfl := next_unique next turn.next
  have ordered := visited.ordered.1
  have closed : s₁.blocks = bs := by
    obtain ⟨c, cs, here', reblocks⟩ := visited.reblocks turn
    obtain ⟨rfl, rfl⟩ := List.cons.inj (here.symm.trans here')
    generalize s₁.blocks = bs₁ at reblocks
    cases reblocks with
    | opens opens => cases opens
    | «end» => rfl
    | stays plain => cases plain
  rw [here] at ordered
  refine .inr (Reaches.block (P := fun _ => False) rest (visited.tail turn) ?_ ?_ fun _ _ _ _ no => no)
  · exact Nat.le_trans (ordered.started b List.mem_cons_self) (Nat.le_of_lt turn.lt)
  · intro c mem same
    rw [closed] at mem
    have lt := (List.pairwise_cons.mp ordered.sorted).1 c mem
    omega

theorem isEnd_function : ∃ e, IsEnd ctx fn 0 (t.code.length - 1) e := by
  obtain ⟨visited, closed, done⟩ := load_eq_ok loaded
  obtain same | ⟨s, before, next⟩ := Relation.ReflTransGen.cases_tail visited
  · rw [same] at closed
    cases closed
  obtain ⟨i, n, wide, turn⟩ := Next.turn next
  have visited' : Visited ctx fn s := before
  obtain ⟨b, bs, here, reblocks⟩ := visited'.reblocks turn
  have ordered := visited'.ordered.1
  have blocks : t.blocks = [] := closed
  rw [blocks] at reblocks
  rw [here] at ordered
  cases reblocks with
  | «end» =>
    obtain rfl := decode_bare_length turn.decoded rfl
    have function : b.labelType = .function := (ordered.function (List.suffix_refl _)).mpr rfl
    have ptr := turn.ptr
    exact ⟨b.elsePtr, s, b, [], visited', by omega, here, ordered.entry b List.mem_cons_self function, rfl,
      turn.decoded⟩

/-- **A block has one end.** -/
theorem IsEnd.unique {a p p' : Nat} {e e' : Option Nat} (h : IsEnd ctx fn a p e) (h' : IsEnd ctx fn a p' e') :
    p = p' ∧ e = e' := by
  obtain ⟨s, b, bs, visited, rfl, here, start, rfl, ends⟩ := h
  obtain ⟨s', b', bs', visited', rfl, here', start', rfl, ends'⟩ := h'
  have mem : b ∈ s.blocks := here ▸ List.mem_cons_self
  have mem' : b' ∈ s'.blocks := here' ▸ List.mem_cons_self
  have same : s = s' := by
    obtain reaches | reaches := Relation.ReflTransGen.total_of_right_unique next_unique visited visited'
    · obtain same | gone := Reaches.gone loaded visited here ends reaches
      · exact same
      · exact absurd (start'.trans start.symm) (gone b' mem')
    · obtain same | gone := Reaches.gone loaded visited' here' ends' reaches
      · exact same.symm
      · exact absurd (start.trans start'.symm) (gone b mem)
  subst same
  obtain ⟨rfl, -⟩ := List.cons.inj (here.symm.trans here')
  exact ⟨rfl, rfl⟩

/-- **The `else` of a block** is the one that is on record at its end. -/
theorem IsEnd.else {a p : Nat} {e : Option Nat} (h : IsEnd ctx fn a p e) (visited : Visited ctx fn s)
    (here : s.blocks = b :: bs) (start : b.startPtr = a) (decoded : decode s.rest = some (.else, 1)) :
    e = some s.ptr := by
  obtain ⟨s₁, b₁, bs₁, visited₁, rfl, here₁, start₁, rfl, ends⟩ := h
  have mem : b ∈ s.blocks := here ▸ List.mem_cons_self
  have mem₁ : b₁ ∈ s₁.blocks := here₁ ▸ List.mem_cons_self
  have differs : s ≠ s₁ := by
    rintro rfl
    cases decoded.symm.trans ends
  obtain reaches | reaches := Relation.ReflTransGen.total_of_right_unique next_unique visited visited₁
  · obtain same | ⟨s₂, next, rest⟩ := Relation.ReflTransGen.cases_head reaches
    · exact absurd same differs
    obtain ⟨wide, s₃, turn, -⟩ := visited.turn_at loaded (by rw [here]; exact List.cons_ne_nil _ _) decoded
    obtain rfl := next_unique next turn.next
    obtain ⟨c, cs, here', reblocks⟩ := visited.reblocks turn
    obtain ⟨rfl, rfl⟩ := List.cons.inj (here.symm.trans here')
    have ordered := visited.ordered.1
    rw [here] at ordered
    refine Reaches.block (P := fun c => c.elsePtr = some s.ptr) rest (visited.tail turn)
      (Nat.le_trans (ordered.started b List.mem_cons_self) (Nat.le_of_lt turn.lt)) ?_ ?_ b₁ mem₁
      (start₁.trans start.symm)
    · intro c mem starts
      generalize s₂.blocks = bs₂ at reblocks mem
      cases reblocks with
      | opens opens => cases opens
      | «else» label first =>
        obtain rfl | mem := List.mem_cons.mp mem
        · rfl
        · have lt := (List.pairwise_cons.mp ordered.sorted).1 c mem
          omega
      | stays plain => cases plain
    · rintro c e polymorphic (same | none) kept
      · exact same.symm.trans kept
      · cases none.symm.trans kept
  · obtain same | gone := Reaches.gone loaded visited₁ here₁ ends reaches
    · exact absurd same.symm differs
    · exact absurd (start.trans start₁.symm) (gone b mem)

end Ends

end FunctionLoader

end Dtvm.Wasm
