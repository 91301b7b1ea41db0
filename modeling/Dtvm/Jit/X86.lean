import Dtvm.Word.Limbs

/-!
# Selected machine code

`X86CgLowering` selects x86 instructions for MIR expressions, over virtual registers, the two physical registers
that multiplication and division are tied to, and the flags. Selecting an instruction and executing it are one
step here: an emitter returns the register of the result, and leaves the machine on which the instruction has been
executed. What it does is stated by what holds of that machine (`Yields`), and by that the registers in use before
have kept their contents (`Cpu.Keeps`).
-/

namespace Dtvm.Jit.X86

open Limb

structure Flags where
  cf : Bool
  of : Bool
deriving DecidableEq

/-- The machine: virtual registers, numbered from 1, those below `next` in use; `RAX`, `RDX` and the flags. -/
structure Cpu where
  regs : Nat → BitVec 64
  next : Nat
  next_pos : 0 < next
  rax : BitVec 64
  rdx : BitVec 64
  flags : Flags

def noRegister : Nat := 0

def Cpu.define (c : Cpu) (v : BitVec 64) : Cpu :=
  { c with regs := Function.update c.regs c.next v, next := c.next + 1, next_pos := Nat.succ_pos _ }

def Cpu.set (c : Cpu) (r : Nat) (v : BitVec 64) : Cpu := { c with regs := Function.update c.regs r v }

def Cpu.setFlags (c : Cpu) (flags : Flags) : Cpu := { c with flags }

def Cpu.setRax (c : Cpu) (v : BitVec 64) : Cpu := { c with rax := v }

def Cpu.setRdx (c : Cpu) (v : BitVec 64) : Cpu := { c with rdx := v }

abbrev Emit := StateT Cpu Option

/-! ## Instructions -/

/-- An instruction on two values that writes one and the flags. -/
abbrev Alu := Flags → BitVec 64 → BitVec 64 → BitVec 64 × Flags

def signedOverflow (a b sum : BitVec 64) : Bool := a.msb == b.msb && sum.msb != a.msb

/-- `ADD64rr`. -/
def add64 : Alu := fun _ a b =>
  ((adc a b false).1, ⟨(adc a b false).2, signedOverflow a b (adc a b false).1⟩)

/-- `ADC64ri32`, `ADC64rr`. -/
def adc64 : Alu := fun f a b => ((adc a b f.cf).1, ⟨(adc a b f.cf).2, signedOverflow a b (adc a b f.cf).1⟩)

/-- `ADCX64rr`: addition with the carry flag alone. -/
def adcx64 : Alu := fun f a b => ((adc a b f.cf).1, { f with cf := (adc a b f.cf).2 })

/-- `ADOX64rr`: addition with the overflow flag as carry. -/
def adox64 : Alu := fun f a b => ((adc a b f.of).1, { f with of := (adc a b f.of).2 })

/-- `createReg`: a register whose contents do not matter yet. -/
def createReg : Emit Nat := fun c => some (c.next, c.define 0)

def fastEmitInstRr (op : Alu) (r s : Nat) : Emit Nat := fun c =>
  let x := op c.flags (c.regs r) (c.regs s)
  some (c.next, (c.define x.1).setFlags x.2)

def fastEmitInstRi (op : Alu) (r : Nat) (imm : BitVec 64) : Emit Nat := fun c =>
  let x := op c.flags (c.regs r) imm
  some (c.next, (c.define x.1).setFlags x.2)

/-- `TEST64rr`: the carries are cleared. -/
def test64 (_ _ : Nat) : Emit Unit := fun c => some ((), c.setFlags ⟨false, false⟩)

/-- `X86MaterializeInt`: a move, which leaves the flags alone. -/
def x86MaterializeInt (imm : BitVec 64) : Emit Nat := fun c => some (c.next, c.define imm)

/-- `COPY` to `RAX`. -/
def copyToRax (r : Nat) : Emit Unit := fun c => some ((), c.setRax (c.regs r))

/-- `COPY` to `RDX`. -/
def copyToRdx (r : Nat) : Emit Unit := fun c => some ((), c.setRdx (c.regs r))

/-- `COPY` from `RAX` to a new register. -/
def copyFromRax : Emit Nat := fun c => some (c.next, c.define c.rax)

/-- `COPY` from `RDX` to a new register. -/
def copyFromRdx : Emit Nat := fun c => some (c.next, c.define c.rdx)

/-- `MUL64r`: the carries say whether the high half is used. -/
def mul64 (r : Nat) : Emit Unit := fun c =>
  let high := mulHigh c.rax (c.regs r)
  some ((), ((c.setRax (c.rax * c.regs r)).setRdx high).setFlags ⟨high != 0, high != 0⟩)

/-- `MULX64rr`: the factor in `RDX`, no flags. -/
def mulx64 (hi lo r : Nat) : Emit Unit := fun c =>
  some ((), (c.set lo (c.rdx * c.regs r)).set hi (mulHigh c.rdx (c.regs r)))

/-- `DIV64r`: a fault if the quotient does not fit. -/
def div64 (r : Nat) : Emit Unit := fun c =>
  (divWide c.rdx c.rax (c.regs r)).map fun x => ((), (c.setRax x.1).setRdx x.2)

/-! ## What code does -/

def Yields {α : Type} (p : Emit α) (c : Cpu) (Q : α → Cpu → Prop) : Prop := ∃ a c', p c = some (a, c') ∧ Q a c'

theorem Yields.pure {α : Type} {a : α} {c : Cpu} {Q : α → Cpu → Prop} (h : Q a c) :
    Yields (Pure.pure a) c Q := ⟨a, c, rfl, h⟩

theorem Yields.next {α β : Type} {p : Emit α} {f : α → Emit β} {c c' : Cpu} {a : α} {R : β → Cpu → Prop}
    (run : p c = some (a, c')) (rest : Yields (f a) c' R) : Yields (p >>= f) c R := by
  obtain ⟨b, c'', run', holds⟩ := rest
  refine ⟨b, c'', ?_, holds⟩
  show (p c >>= fun x => f x.1 x.2) = _
  rw [run]
  exact run'

theorem Yields.bind {α β : Type} {p : Emit α} {f : α → Emit β} {c : Cpu} {Q : α → Cpu → Prop}
    {R : β → Cpu → Prop} (h : Yields p c Q) (rest : ∀ a c', Q a c' → Yields (f a) c' R) : Yields (p >>= f) c R := by
  obtain ⟨a, c', run, holds⟩ := h
  exact .next run (rest a c' holds)

theorem Yields.mono {α : Type} {p : Emit α} {c : Cpu} {Q R : α → Cpu → Prop} (h : Yields p c Q)
    (imp : ∀ a c', Q a c' → R a c') : Yields p c R := by
  obtain ⟨a, c', run, holds⟩ := h
  exact ⟨a, c', run, imp a c' holds⟩

namespace Cpu

/-- A register in use, other than the one whose contents are never read. -/
structure Live (c : Cpu) (dead r : Nat) : Prop where
  pos : 0 < r
  used : r < c.next
  ne : r ≠ dead

def Keeps (c : Cpu) (dead : Nat) (c' : Cpu) (dead' : Nat) : Prop :=
  ∀ r, c.Live dead r → c'.Live dead' r ∧ c'.regs r = c.regs r

theorem Keeps.refl (c : Cpu) (dead : Nat) : c.Keeps dead c dead := fun _ live => ⟨live, rfl⟩

theorem Keeps.trans {c c' c'' : Cpu} {d d' d'' : Nat} (h : c.Keeps d c' d') (h' : c'.Keeps d' c'' d'') :
    c.Keeps d c'' d'' := by
  intro r live
  obtain ⟨live', same⟩ := h r live
  obtain ⟨live'', same'⟩ := h' r live'
  exact ⟨live'', same'.trans same⟩

structure Holds (c : Cpu) (dead r : Nat) (v : BitVec 64) : Prop where
  live : c.Live dead r
  eq : c.regs r = v

theorem Holds.keep {c c' : Cpu} {d d' r : Nat} {v : BitVec 64} (h : c.Holds d r v) (keeps : c.Keeps d c' d') :
    c'.Holds d' r v := ⟨(keeps r h.live).1, (keeps r h.live).2.trans h.eq⟩

theorem keeps_setFlags (c : Cpu) (dead : Nat) (flags : Flags) : c.Keeps dead (c.setFlags flags) dead :=
  fun _ live => ⟨⟨live.pos, live.used, live.ne⟩, rfl⟩

theorem keeps_setRax (c : Cpu) (dead : Nat) (v : BitVec 64) : c.Keeps dead (c.setRax v) dead :=
  fun _ live => ⟨⟨live.pos, live.used, live.ne⟩, rfl⟩

theorem keeps_setRdx (c : Cpu) (dead : Nat) (v : BitVec 64) : c.Keeps dead (c.setRdx v) dead :=
  fun _ live => ⟨⟨live.pos, live.used, live.ne⟩, rfl⟩

theorem keeps_define (c : Cpu) (dead : Nat) (v : BitVec 64) : c.Keeps dead (c.define v) dead := by
  intro r live
  refine ⟨⟨live.pos, Nat.lt_succ_of_lt live.used, live.ne⟩, ?_⟩
  show Function.update c.regs c.next v r = c.regs r
  exact Function.update_of_ne (Nat.ne_of_lt live.used) v c.regs

theorem holds_define (c : Cpu) {dead : Nat} (old : dead < c.next) (v : BitVec 64) :
    (c.define v).Holds dead c.next v := by
  refine ⟨⟨c.next_pos, Nat.lt_succ_self _, (Nat.ne_of_lt old).symm⟩, ?_⟩
  show Function.update c.regs c.next v c.next = v
  exact Function.update_self c.next v c.regs

theorem Keeps.set {c c' : Cpu} {d d' r : Nat} (h : c.Keeps d c' d') (outside : ¬ c.Live d r) (v : BitVec 64) :
    c.Keeps d (c'.set r v) d' := by
  intro s live
  obtain ⟨live', same⟩ := h s live
  have ne : s ≠ r := fun eq => outside (eq ▸ live)
  refine ⟨⟨live'.pos, live'.used, live'.ne⟩, Eq.trans ?_ same⟩
  show Function.update c'.regs r v s = c'.regs s
  exact Function.update_of_ne ne v c'.regs

theorem holds_set {c : Cpu} {dead r : Nat} (live : c.Live dead r) (v : BitVec 64) : (c.set r v).Holds dead r v := by
  refine ⟨⟨live.pos, live.used, live.ne⟩, ?_⟩
  show Function.update c.regs r v r = v
  exact Function.update_self r v c.regs

theorem Holds.set {c : Cpu} {dead r s : Nat} {v : BitVec 64} (h : c.Holds dead r v) (ne : r ≠ s) (x : BitVec 64) :
    (c.set s x).Holds dead r v := by
  refine ⟨⟨h.live.pos, h.live.used, h.live.ne⟩, Eq.trans ?_ h.eq⟩
  show Function.update c.regs s x r = c.regs r
  exact Function.update_of_ne ne x c.regs

end Cpu

section Emitters

variable {c : Cpu} {dead : Nat}

theorem fastEmitInstRr_yields (op : Alu) (r s : Nat) (old : dead < c.next) :
    Yields (fastEmitInstRr op r s) c fun t c' => c.Keeps dead c' dead ∧ dead < c'.next ∧
      c'.Holds dead t (op c.flags (c.regs r) (c.regs s)).1 ∧
      c'.flags = (op c.flags (c.regs r) (c.regs s)).2 ∧ c'.rdx = c.rdx := by
  refine ⟨_, _, rfl, ?_, Nat.lt_succ_of_lt old, ?_, rfl, rfl⟩
  · exact (c.keeps_define dead _).trans (Cpu.keeps_setFlags _ dead _)
  · exact (c.holds_define old _).keep (Cpu.keeps_setFlags _ dead _)

theorem fastEmitInstRi_yields (op : Alu) (r : Nat) (imm : BitVec 64) (old : dead < c.next) :
    Yields (fastEmitInstRi op r imm) c fun t c' => c.Keeps dead c' dead ∧ dead < c'.next ∧
      c'.Holds dead t (op c.flags (c.regs r) imm).1 := by
  refine ⟨_, _, rfl, ?_, Nat.lt_succ_of_lt old, ?_⟩
  · exact (c.keeps_define dead _).trans (Cpu.keeps_setFlags _ dead _)
  · exact (c.holds_define old _).keep (Cpu.keeps_setFlags _ dead _)

theorem x86MaterializeInt_yields (imm : BitVec 64) (old : dead < c.next) :
    Yields (x86MaterializeInt imm) c fun t c' => c.Keeps dead c' dead ∧ dead < c'.next ∧ c'.Holds dead t imm :=
  ⟨_, _, rfl, c.keeps_define dead imm, Nat.lt_succ_of_lt old, c.holds_define old imm⟩

theorem copies_yield (old : dead < c.next) :
    Yields (do let l ← copyFromRax; let h ← copyFromRdx; pure (l, h)) c fun x c' =>
      c.Keeps dead c' dead ∧ dead < c'.next ∧ c'.Holds dead x.1 c.rax ∧ c'.Holds dead x.2 c.rdx := by
  have old' : dead < (c.define c.rax).next := Nat.lt_succ_of_lt old
  refine ⟨_, (c.define c.rax).define c.rdx, rfl, ?_, Nat.lt_succ_of_lt old', ?_, ?_⟩
  · exact (c.keeps_define dead _).trans (Cpu.keeps_define _ dead _)
  · exact (c.holds_define old _).keep (Cpu.keeps_define _ dead _)
  · exact Cpu.holds_define _ old' _

end Emitters

/-! ## Division -/

/-- `lowerEvmUdiv128By64Expr`: quotient and remainder. -/
def lowerEvmUdiv128By64Expr (hi lo divisor : Nat) : Emit (Nat × Nat) := do
  copyToRdx hi
  copyToRax lo
  div64 divisor
  let quotient ← copyFromRax
  let remainder ← copyFromRdx
  pure (quotient, remainder)

theorem lowerEvmUdiv128By64Expr_none {c : Cpu} {hi lo divisor : Nat}
    (undefined : divWide (c.regs hi) (c.regs lo) (c.regs divisor) = none) :
    lowerEvmUdiv128By64Expr hi lo divisor c = none := by
  have faults : div64 divisor ((c.setRdx (c.regs hi)).setRax (c.regs lo)) = none :=
    congrArg (Option.map _) undefined
  show (div64 divisor ((c.setRdx (c.regs hi)).setRax (c.regs lo)) >>= _) = none
  rw [faults]
  rfl

theorem lowerEvmUdiv128By64Expr_yields {c : Cpu} {hi lo divisor : Nat} {q r : BitVec 64}
    (defined : divWide (c.regs hi) (c.regs lo) (c.regs divisor) = some (q, r)) :
    Yields (lowerEvmUdiv128By64Expr hi lo divisor) c fun x c' => c.Keeps noRegister c' noRegister ∧
      c'.Holds noRegister x.1 q ∧ c'.Holds noRegister x.2 r := by
  have divides : div64 divisor ((c.setRdx (c.regs hi)).setRax (c.regs lo)) =
      some ((), (((c.setRdx (c.regs hi)).setRax (c.regs lo)).setRax q).setRdx r) :=
    congrArg (Option.map _) defined
  refine .next rfl (.next rfl (.next divides ?_))
  refine (copies_yield (Cpu.next_pos _)).mono fun x c' ⟨keeps, _, quotient, remainder⟩ => ?_
  refine ⟨?_, quotient, remainder⟩
  exact (((c.keeps_setRdx _ _).trans (Cpu.keeps_setRax _ _ _)).trans
    ((Cpu.keeps_setRax _ _ _).trans (Cpu.keeps_setRdx _ _ _))).trans keeps

end Dtvm.Jit.X86
