import Dtvm.Evm.Static
import Dtvm.Evm.Chunks

/-!
# Single opcodes and the gas

Two things the comparison of the interpreter's two ways of charging rests on.

The gas of a machine is a budget in the sense of `Effect.Meters`: an opcode that does not end a
chunk only spends (`Machine.handle_metered`), and when it stops a run it does so by a failure
(`fails_of_stops`).

The two paths run the same program for an opcode the revision has (`Setup.fastOp_of_runs`,
`Setup.slowOp_of_runs`) and fail on any other; they differ in who collects the base cost.
-/

namespace Dtvm

open Effect Program

/-! ## The gas of a machine as a budget -/

theorem Machine.withGas_self (m : Machine) : m.withGas m.gas = m := rfl

theorem Machine.withGas_pc (m : Machine) (g : Nat) : (m.withGas g).pc = m.pc := rfl

theorem Machine.metered_of_gasFree {α : Type} {f : Machine → Except Halt α × Machine} {w : Machine}
    (free : ∀ g, f (w.withGas g) = ((f w).1, (f w).2.withGas g)) : ∃ b, Meters Machine.withGas f w b := by
  cases h : f w with
  | mk r w' =>
    simp only [h] at free
    cases r with
    | error e => exact ⟨.stops, fun g => ⟨e, w'.withGas g, free g⟩⟩
    | ok a => exact ⟨.spends 0 a w', fun g => ⟨fun _ => free g, fun no => absurd no (by omega)⟩⟩

theorem Machine.handle_charge_meters (host : Host) (n : Nat) (w : Machine) :
    Meters Machine.withGas (Machine.handle host (.charge n)) w (.spends n () w) := by
  intro g
  refine ⟨fun enough => ?_, fun short => ?_⟩
  · simp [Machine.handle, Machine.withGas, Nat.not_lt.mpr enough]
  · exact ⟨_, _, if_pos short⟩

theorem Machine.charge_meters (host : Host) (n : Nat) (w : Machine) :
    Meters Machine.withGas ((Code.charge n).run (Machine.handle host)) w (.spends n () w) := by
  have run : (Code.charge n).run (Machine.handle host) = Machine.handle host (.charge n) :=
    funext fun m => run_perform (Machine.handle host) (.charge n) m
  rw [run]
  exact Machine.handle_charge_meters host n w

theorem Machine.handle_metered (env : Env) (host : Host) (o : FrameOp) (may : May env false o)
    (w : Machine) : ∃ b, Meters Machine.withGas (Machine.handle host o) w b := by
  cases o with
  | charge n => exact ⟨_, Machine.handle_charge_meters host n w⟩
  | gas | credit n => cases may
  | need | pop | room | push | dup | swap =>
    refine Machine.metered_of_gasFree fun g => ?_
    simp only [Machine.handle, Machine.withGas]
    split <;> simp only [*, if_true, if_false]
  | _ => exact Machine.metered_of_gasFree fun g => rfl

/-- What an opcode's stop looks like: a failure status, or `success` or `revert` at its end. -/
theorem Machine.handle_stop {env : Env} {t : Bool} (host : Host) (o : FrameOp) (m : Machine)
    (e : Halt) (m' : Machine) (may : May env t o) (stop : Machine.handle host o m = (.error e, m')) :
    (∃ st, e = .fail st ∧ st.isFailure = true) ∨ (∃ st, e = .finish st ∧ t = true ∧ st.isFailure = false) := by
  cases o with
  | halt h =>
    cases stop
    cases e with
    | fail st => exact .inl ⟨st, rfl, may⟩
    | finish st => exact .inr ⟨st, rfl, may.1, may.2⟩
  | need | pop | room | push | dup | swap | charge =>
    simp only [Machine.handle] at stop
    split at stop
    · cases stop
      exact .inl ⟨_, rfl, rfl⟩
    · cases stop
  | _ => cases stop

def Fails {α : Type} (r : Except Halt α × Machine) : Prop := ∃ st m, r = (.error (.fail st), m)

theorem fails_of_stops {env : Env} {host : Host} {α : Type} {p : Code α}
    (within : Within (May env false) p) {m : Machine} (stops : Stops (p.run (Machine.handle host) m)) :
    Fails (p.run (Machine.handle host) m) := by
  obtain ⟨e, m', eq⟩ := stops
  obtain ⟨st, rfl, -⟩ | ⟨_, _, no, _⟩ := run_stop (Machine.handle_stop host) within eq
  · exact ⟨st, m', eq⟩
  · cases no

theorem Fails.bind {host : Host} {α β : Type} {p : Code α} {m : Machine}
    (h : Fails (p.run (Machine.handle host) m)) (f : α → Code β) : Fails ((p >>= f).run (Machine.handle host) m) := by
  obtain ⟨st, m', eq⟩ := h
  exact ⟨st, m', run_bind_error eq f⟩

/-- A sequence fails if its first part, which cannot end the frame, is followed by a failure. -/
theorem fails_bind {env : Env} {host : Host} {α β : Type} {p : Code α} {f : α → Code β}
    (within : Within (May env false) p) {m : Machine}
    (then_fails : ∀ a m', p.run (Machine.handle host) m = (.ok a, m') → Fails ((f a).run (Machine.handle host) m')) :
    Fails ((p >>= f).run (Machine.handle host) m) := by
  cases h : p.run (Machine.handle host) m with
  | mk r m' =>
    cases r with
    | error e => exact (fails_of_stops within ⟨e, m', h⟩).bind f
    | ok a =>
      rw [run_bind_ok h]
      exact then_fails a m' h

/-! ## Single opcodes on both paths -/

theorem Opcode.exec_next {env : Env} {maps : DecodeMaps} {o : Opcode}
    (plain : o.isGasChunkTerminator = false) (known : o ≠ .unknown) :
    o.exec env maps = (do let _ ← o.exec env maps; pure .next) := by
  cases o with
  | jump | jumpi => cases plain
  | unknown => exact absurd rfl known
  | _ => simp [Opcode.exec, Handler.next]

theorem Opcode.eq_zero_of_ofByte_stop {b : UInt8} (h : Opcode.ofByte b = .stop) : b = 0 := by
  have all : ∀ n : Fin 256, Opcode.ofByte (UInt8.ofNat n) = .stop → UInt8.ofNat n = 0 := by
    decide +kernel
  simpa [h] using all ⟨b.toNat, b.toNat_lt⟩

theorem Opcode.eq_push0_of_ofByte {b : UInt8} (h : Opcode.ofByte b = .push0) : b = 0x5f := by
  have all : ∀ n : Fin 256, Opcode.ofByte (UInt8.ofNat n) = .push0 → UInt8.ofNat n = 0x5f := by
    decide +kernel
  simpa [h] using all ⟨b.toNat, b.toNat_lt⟩

namespace Setup

variable (s : Setup)

/-- The reference: the same setup with no gas chunks, so that every opcode is charged by itself. -/
def withoutChunks : Setup :=
  { s with cache := { s.cache with gasChunkEnd := fun _ => 0, gasChunkCost := fun _ => 0 } }

/-- The revision has the opcode at `pc` and the dispatch table lists it. -/
def Runs (pc : Nat) : Prop :=
  s.defined (byteAt s.env.code pc) = true ∧ opAt s.env.code pc ≠ .unknown

instance : DecidablePred s.Runs := fun _ => inferInstanceAs (Decidable (_ ∧ _))

/-- The base cost of the opcode at `pc`. -/
def costAt (pc : Nat) : Nat := s.baseCost (byteAt s.env.code pc)

/-- The opcode at `pc`, and on to the next one. -/
def onward (pc : Nat) : Code Unit := do
  let _ ← (opAt s.env.code pc).exec s.env s.cache.maps
  Code.setPc (pc + (opAt s.env.code pc).len)

variable {s} {pc : Nat}

theorem fastOp_of_runs (runs : s.Runs pc) :
    s.fastOp (byteAt s.env.code pc) = (opAt s.env.code pc).exec s.env s.cache.maps := by
  obtain ⟨has, known⟩ := runs
  unfold fastOp
  rw [if_neg (by simp [has])]
  split
  · exact absurd ‹_› known
  · -- the table has `PUSH0` only in revisions that pass the check
    rename_i push0
    have shanghai := s.tables.push0_shanghai s.env.rev
      (by rw [← Opcode.eq_push0_of_ofByte push0]; exact has)
    rw [if_neg (Revision.not_lt.mpr shanghai)]
    simp only [opAt, push0]
  · rfl

theorem fastOp_of_not_runs (bad : ¬ s.Runs pc) : s.fastOp (byteAt s.env.code pc) = Code.fail .undefinedInstruction := by
  unfold fastOp
  split
  · rfl
  · rename_i has
    have unknown : Opcode.ofByte (byteAt s.env.code pc) = .unknown := by
      by_contra known
      exact bad ⟨by simpa using has, known⟩
    rw [unknown]

theorem slowOp_of_not_runs (bad : ¬ s.Runs pc) : ∃ st, s.slowOp (byteAt s.env.code pc) = Code.fail st := by
  unfold slowOp
  split
  · exact ⟨_, rfl⟩
  · rename_i has
    have unknown : Opcode.ofByte (byteAt s.env.code pc) = .unknown := by
      by_contra known
      exact bad ⟨by simpa using has, known⟩
    rw [unknown]
    exact ⟨.invalidInstruction, rfl⟩

theorem slowOp_of_runs (runs : s.Runs pc) (stop : opAt s.env.code pc ≠ .stop)
    (invalid : opAt s.env.code pc ≠ .invalid) : s.slowOp (byteAt s.env.code pc) =
      (do Code.charge (s.costAt pc); (opAt s.env.code pc).exec s.env s.cache.maps) := by
  obtain ⟨has, known⟩ := runs
  unfold slowOp
  rw [if_neg (by simp [has])]
  split
  · exact absurd ‹_› stop
  · exact absurd ‹_› invalid
  · exact absurd ‹_› known
  · rfl

end Setup

end Dtvm
