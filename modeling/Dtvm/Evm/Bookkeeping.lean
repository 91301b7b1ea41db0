import Dtvm.Effect.Contract
import Dtvm.Evm.ChunkGas
import Dtvm.Evm.Steps

/-!
# How a frame leaves, and the stack on its way

A failure gives up the frame's gas, takes the instance's refund counter back to the frame's snapshot and drops
the return data (`handleExecutionStatus`); `REVERT` takes the counter back itself and keeps the gas. Opcodes fail
in dozens of places, so the end of a frame is read off the run as a whole (`Restores`). The accesses to the stack
do not check their cells, so every handler is shown to check them first (`Guarded`).
-/

namespace Dtvm

open Effect Program Code

/-! ## Leaving -/

/-- `handleExecutionStatus`: a failure frees the frame, gives up its gas, takes the instance's counter back to
the snapshot, and sets the result from the cleared return data; with `success` or `revert` the frame stays, and
no result is set. -/
def handleExecutionStatus (snapshot : Int) (m : Machine) : Status → Option (Machine × ExeResult)
  | .success | .revert => none
  | st =>
    let left := { m with gas := 0, refund := snapshot, returnData := [] }
    some (left, ⟨st, 0, left.refund, left.returnData⟩)

/-- The instance and the result after the loop. An opcode that set a status and returned leaves the frame to
`handleExecutionStatus`; one that ended the frame has the result built of what it left. -/
def Setup.leave (s : Setup) : Halt → Machine → Option (Machine × ExeResult)
  | .fail st, m => handleExecutionStatus s.env.refundSnapshot m st
  | .finish st, m => some (m, ⟨st, m.gas, m.refund, m.returnData⟩)

/-! ## Ends by `REVERT` -/

/-- An end by `REVERT` has taken the counter back. -/
def Restored (env : Env) (h : Halt) (m : Machine) : Prop :=
  h = .finish .revert → m.refund = env.refundSnapshot

/-- Wherever the program ends the frame with `revert`, the counter is the snapshot. -/
class Restores (env : Env) {α : Type} (p : Code α) : Prop where
  obeys : ∀ (host : Host) (m : Machine),
    Obeys (Machine.handle host) (fun _ _ => True) (fun _ _ => True) (Restored env) p m

/-- Any operation but an end with `revert`. -/
@[reducible] def NoRevert : FrameOp → Prop
  | .halt (.finish .revert) => False
  | _ => True

namespace Restores

open Handler

variable {env : Env} {α β : Type}

theorem bind {p : Code α} {f : α → Code β} (hp : Restores env p) (hf : ∀ a, Restores env (f a)) :
    Restores env (p >>= f) where
  obeys host m := (hp.obeys host m).bind fun a m' _ => (hf a).obeys host m'

theorem of_within {p : Code α} (h : Within NoRevert p) : Restores env p where
  obeys host m := by
    refine Obeys.of_within h trivial (fun _ _ _ _ => trivial) (fun _ _ _ _ => trivial) ?_
    rintro o m e m' allowed - eq rfl
    cases o with
    | halt h =>
      cases congrArg Prod.fst eq
      exact allowed.elim
    | need | room | pop | push | dup | swap | charge =>
      simp only [Machine.handle] at eq
      split at eq <;> cases eq
    | _ => cases eq

instance (op : CreateOp) (v o n s : Word) : Within NoRevert (createWith env op v o n s) := by
  have send : ∀ input, Within NoRevert (sendCreate env op v s input) := fun _ => by unfold sendCreate; infer_instance
  unfold createWith
  exact .after fun _ => .after fun _ => .after fun _ =>
    .ite inferInstance inferInstance

instance (op : CallOp) (w : Word) (dest : Address) (value io is oo os : Word) :
    Within NoRevert (callWith env op w dest value io is oo os) := by
  have send : ∀ m o n, Within NoRevert (sendCall m o n) := fun _ _ _ => by unfold sendCall; infer_instance
  unfold callWith
  refine .after fun _ => .after fun _ => .after fun _ =>
    .after fun _ => .after fun _ => .ite inferInstance ?_
  refine .after fun _ => .after fun _ => .after fun _ =>
    .after fun _ => .after fun sent => ?_
  cases sent <;> infer_instance

-- The longest handlers take more steps than an instance is given.
set_option synthInstance.maxSize 256 in
theorem exec_noRevert (maps : DecodeMaps) {o : Opcode} (other : o ≠ .revert) : Within NoRevert (o.exec env maps) := by
  cases o with
  | revert => exact absurd rfl other
  | create op => cases op <;> simp only [Opcode.exec, next, create] <;> infer_instance
  | _ => simp only [Opcode.exec, next, sstore, tstore, log, selfDestruct, return', returnedData, call]; infer_instance

/-- **Every opcode restores the counter**: `REVERT` takes it back before it ends the frame. -/
theorem exec (maps : DecodeMaps) (o : Opcode) : Restores env (o.exec env maps) := by
  by_cases reverts : o = .revert
  · subst reverts
    have last : Restores env (do setRefund env.refundSnapshot; finish .revert : Code Unit) :=
      ⟨fun _ _ => ⟨trivial, trivial, fun _ => rfl⟩⟩
    have data : Within NoRevert returnedData := by unfold returnedData; infer_instance
    unfold Opcode.exec next revert
    exact .bind (.bind (of_within data) fun _ => .bind (of_within inferInstance) fun _ => last)
      fun _ => of_within inferInstance
  · exact of_within (exec_noRevert maps reverts)

end Restores

theorem Setup.carries_restores (s : Setup) : s.Carries fun p => Restores s.env p where
  exec := .exec s.cache.maps
  bind := .bind
  done := .of_within inferInstance
  fail := .of_within inferInstance
  pc := .of_within inferInstance
  setPc _ := .of_within inferInstance
  gas := .of_within inferInstance
  charge _ := .of_within inferInstance
  stop := .of_within inferInstance

theorem Ends.restored {host : Host} {s : Setup} {m m' : Machine} (ends : Ends host s m (.finish .revert) m') :
    m'.refund = s.env.refundSnapshot := by
  obtain ⟨turns, eq⟩ := ends
  exact ((s.carries_restores.interpret turns).obeys host m).stops eq rfl

/-! ## The stack -/

/-- The cells of the stack whose words an operation takes or moves, counted from the bottom. A cell below the
bottom would have a negative number. -/
def FrameOp.read (sp : Nat) : FrameOp → List Int
  | .pop n => (List.range n).map fun k : Nat => (sp : Int) - 1 - k
  | .dup k => [(sp : Int) - 1 - k]
  | .swap n => [(sp : Int) - 1, (sp : Int) - 1 - n]
  | _ => []

/-- The cells that an operation writes. -/
def FrameOp.written (sp : Nat) : FrameOp → List Int
  | .push _ | .dup _ => [sp]
  | .swap n => [(sp : Int) - 1, (sp : Int) - 1 - n]
  | _ => []

/-- The pointer is in range, the operation reads items only, and it writes items or the cell of the next one. -/
structure OnItems (o : FrameOp) (m : Machine) : Prop where
  pointer : m.stack.sp ≤ maxStack
  read : ∀ c ∈ o.read m.stack.sp, 0 ≤ c ∧ c < m.stack.sp
  written : ∀ c ∈ o.written m.stack.sp, 0 ≤ c ∧ c ≤ m.stack.sp ∧ c < maxStack

/-- The operations that leave the stack alone, checks among them. -/
@[reducible] def OffStack : FrameOp → Prop
  | .pop _ | .push _ | .dup _ | .swap _ => False
  | _ => True

theorem OffStack.stack {o : FrameOp} (off : OffStack o) (host : Host) (m : Machine) :
    (Machine.handle host o m).2.stack = m.stack := by
  cases o with
  | pop | push | dup | swap => exact off.elim
  | need | room | charge =>
    simp only [Machine.handle]
    split <;> rfl
  | _ => rfl

theorem OffStack.onItems {o : FrameOp} (off : OffStack o) {m : Machine} (room : Setup.HasRoom m) : OnItems o m := by
  cases o with
  | pop | push | dup | swap => exact off.elim
  | _ => exact ⟨room, fun _ mem => absurd mem List.not_mem_nil, fun _ mem => absurd mem List.not_mem_nil⟩

/-- There are `had` items at least, and `free` cells over them. -/
structure Holding (had free : Nat) (m : Machine) : Prop where
  items : had ≤ m.stack.sp
  cells : m.stack.sp + free ≤ maxStack

theorem Holding.room {had free : Nat} {m : Machine} (h : Holding had free m) : Setup.HasRoom m :=
  Nat.le_trans (Nat.le_add_right _ _) h.cells

theorem Setup.HasRoom.holding {m : Machine} (room : Setup.HasRoom m) : Holding 0 0 m := ⟨Nat.zero_le _, room⟩

/-- Where there are `had` items and `free` cells, the program stays on items. -/
class Guarded (had free : Nat) {α : Type} (p : Code α) : Prop where
  obeys : ∀ (host : Host) (m : Machine), Holding had free m →
    Obeys (Machine.handle host) OnItems (fun _ => Setup.HasRoom) (fun _ _ => True) p m

namespace Guarded

variable {had free had' free' : Nat} {α β : Type}

/-! ### Rules -/

/-- An operation and what follows it: the operation is on items, and the rest can count on what it leaves. -/
theorem first (had' free' : Nat) {o : FrameOp} {f : o.Ans → Code β} (here : ∀ {m}, Holding had free m → OnItems o m)
    (leaves : ∀ host m a m', Holding had free m → Machine.handle host o m = (.ok a, m') → Holding had' free' m')
    (rest : ∀ a, Guarded had' free' (f a)) : Guarded had free (Program.perform (S := frameSig) o >>= f) where
  obeys host m h := Obeys.bind (Obeys.perform (here h) (fun a m' eq => leaves host m a m' h eq)
    fun _ _ _ => trivial) fun a m' h' => (rest a).obeys host m' h'

theorem of_within {p : Code α} (h : Within OffStack p) : Guarded had free p where
  obeys host _ held := Obeys.of_within h held.room (fun _ _ off room => off.onItems room)
    (fun _ m off room => (congrArg Stack.sp (off.stack host m)).trans_le room) (fun _ _ _ _ _ _ _ => trivial)

theorem after {p : Code α} {f : α → Code β} (h : Within OffStack p) (rest : ∀ a, Guarded had free (f a)) :
    Guarded had free (p >>= f) where
  obeys host m held := by
    have kept : Obeys (Machine.handle host) OnItems (fun _ => Holding had free) (fun _ _ => True) p m := by
      refine Obeys.of_within h held (fun _ _ off held => off.onItems held.room) ?_ (fun _ _ _ _ _ _ _ => trivial)
      intro o m off held
      have same := congrArg Stack.sp (off.stack host m)
      exact ⟨held.items.trans_eq same.symm, (congrArg (· + free) same).trans_le held.cells⟩
    exact kept.bind fun a m' h' => (rest a).obeys host m' h'

theorem bind {p : Code α} {f : α → Code β} (hp : Guarded had free p) (hf : ∀ a, Guarded 0 0 (f a)) :
    Guarded had free (p >>= f) where
  obeys host m h := (hp.obeys host m h).bind fun a m' room => (hf a).obeys host m' room.holding

/-! ### Checks and accesses -/

theorem pop {n : Nat} {f : (Fin n → Word) → Code β} (enough : had' + n ≤ had)
    (rest : ∀ x, Guarded had' (free + n) (f x)) : Guarded had free (Code.pop n >>= f) := by
  refine first had' (free + n)
    (fun {m} h => ⟨h.room, fun c mem => ?_, fun _ mem => absurd mem List.not_mem_nil⟩) (fun host m a m' h eq => ?_) rest
  · obtain ⟨k, below, rfl⟩ := List.mem_map.mp mem
    have items := h.items
    rw [List.mem_range] at below
    omega
  · simp only [Machine.handle] at eq
    split at eq <;> cases eq
    have items := h.items
    have cells := h.cells
    exact ⟨show had' ≤ m.stack.sp - n by omega, show m.stack.sp - n + (free + n) ≤ maxStack by omega⟩

theorem push {v : Word} {f : Unit → Code β} (rest : ∀ u, Guarded (had + 1) free (f u)) :
    Guarded had (free + 1) (Code.push v >>= f) := by
  refine first (had + 1) free
    (fun {m} h => ⟨h.room, fun _ mem => absurd mem List.not_mem_nil, fun c mem => ?_⟩) (fun host m a m' h eq => ?_) rest
  · have cells := h.cells
    rw [List.mem_singleton.mp mem]
    omega
  · simp only [Machine.handle] at eq
    split at eq <;> cases eq
    have cells := h.cells
    exact ⟨Nat.succ_le_succ h.items, show m.stack.sp + 1 + free ≤ maxStack by omega⟩

theorem need {n : Nat} {f : Unit → Code β} (rest : ∀ u, Guarded n free (f u)) : Guarded had free (Code.need n >>= f) := by
  refine first n free (fun h => OffStack.onItems trivial h.room) (fun host m a m' h eq => ?_) rest
  simp only [Machine.handle] at eq
  split at eq <;> cases eq
  exact ⟨Nat.le_of_not_lt ‹_›, h.cells⟩

theorem room {f : Unit → Code β} (rest : ∀ u, Guarded had 1 (f u)) : Guarded had free (Code.room >>= f) := by
  refine first had 1 (fun h => OffStack.onItems trivial h.room) (fun host m a m' h eq => ?_) rest
  simp only [Machine.handle] at eq
  split at eq <;> cases eq
  exact ⟨h.items, Nat.le_of_not_lt ‹_›⟩

theorem operands {n : Nat} {f : (Fin n → Word) → Code β} (rest : ∀ x, Guarded 0 (free + n) (f x)) :
    Guarded had free (Code.operands n >>= f) := need fun _ => pop (Nat.zero_add n).le rest

instance (p : Code α) [hp : Within OffStack p] : Guarded had free p := of_within hp

instance (p : Code α) (f : α → Code β) [hp : Within OffStack p] [hf : ∀ a, Guarded had free (f a)] :
    Guarded had free (p >>= f) := after hp hf

instance (f : (Fin 1 → Word) → Code β) [hf : ∀ x, Guarded had (free + 1) (f x)] :
    Guarded (had + 1) free (Code.pop 1 >>= f) := pop (Nat.le_refl _) hf

instance (v : Word) : Guarded had (free + 1) (Code.push v) := push (f := pure) fun _ => inferInstance

instance (f : Unit → Code β) [hf : ∀ u, Guarded had 1 (f u)] : Guarded had free (Code.room >>= f) := room hf

instance (n : Nat) (f : (Fin n → Word) → Code β) [hf : ∀ x, Guarded 0 (free + n) (f x)] :
    Guarded had free (Code.operands n >>= f) := operands hf

instance (v : Word) : Guarded had free (pushChecked v) := room fun _ => inferInstance

instance (k : Nat) : Guarded had free (dup k) := need fun _ => room fun _ => by
  refine first 0 0 (f := pure) (fun {m} h => ⟨h.room, fun c mem => ?_, fun c mem => ?_⟩)
    (fun host m a m' h eq => Setup.HasRoom.holding ?_) fun _ => inferInstance
  · have items := h.items
    rw [List.mem_singleton.mp mem]
    omega
  · have cells := h.cells
    rw [List.mem_singleton.mp mem]
    omega
  · have room := h.room.handle host (o := .dup k)
    rwa [eq] at room

instance (n : Nat) : Guarded had free (swap n) := need fun _ => by
  refine first 0 0 (f := pure) (fun {m} h => ⟨h.room, fun c mem => ?_, fun c mem => ?_⟩)
    (fun host m a m' h eq => Setup.HasRoom.holding ?_) fun _ => inferInstance
  · have items := h.items
    rcases List.mem_pair.mp mem with rfl | rfl <;> omega
  · have items := h.items
    have cells := h.cells
    rcases List.mem_pair.mp mem with rfl | rfl <;> omega
  · have room := h.room.handle host (o := .swap n)
    rwa [eq] at room

instance (c : Prop) [Decidable c] (p q : Code α) [hp : Guarded had free p] [hq : Guarded had free q] :
    Guarded had free (if c then p else q) := by
  split
  · exact hp
  · exact hq

instance (c : Prop) [Decidable c] (p : Code Unit) [Guarded had free p] : Guarded had free (Code.when c p) := by
  unfold Code.when
  infer_instance

/-! ### The handlers -/

open Handler

variable {env : Env}

instance : Guarded 0 0 (sstore env) := by unfold sstore; infer_instance
instance : Guarded 0 0 (tstore env) := by unfold tstore; infer_instance
instance : Guarded 0 0 returnedData := by unfold returnedData; infer_instance
instance : Guarded 0 0 Handler.return' := .bind (inferInstanceAs (Guarded 0 0 returnedData)) fun _ => inferInstance
instance : Guarded 0 0 (Handler.revert env) := .bind (inferInstanceAs (Guarded 0 0 returnedData)) fun _ => inferInstance
instance (p : Code Unit) [hp : Guarded 0 0 p] : Guarded 0 0 (next p) := hp.bind fun _ => inferInstance

instance : Guarded 0 0 (selfDestruct env) := by
  unfold selfDestruct
  split
  · infer_instance
  · exact operands fun x => after inferInstance fun _ => after inferInstance fun _ => inferInstance

/-- The check of a log counts its topics too. -/
instance (n : Nat) : Guarded 0 0 (log env n) := by
  unfold log
  split
  · infer_instance
  · exact need fun _ => pop (Nat.le_refl _) fun x => after inferInstance fun _ => after inferInstance fun _ =>
      pop (Nat.zero_add n).le fun _ => inferInstance

/-- The zero that a creation or a call pushes first is there to be replaced. -/
theorem createWith (op : CreateOp) (v o n s : Word) : Guarded 0 free (createWith env op v o n s) := by
  have send : ∀ input, Guarded 1 0 (sendCreate env op v s input) := fun _ => by unfold sendCreate; infer_instance
  unfold Handler.createWith
  refine room fun _ => push fun _ => after inferInstance fun _ => ?_
  split
  · infer_instance
  · exact after inferInstance fun _ => inferInstance

instance (op : CreateOp) : Guarded 0 0 (create env op) := by
  cases op with
  | create | create2 => exact operands fun x => createWith _ _ _ _ _

theorem callWith (op : CallOp) (g : Word) (dest : Address) (v i n o k : Word) :
    Guarded 0 free (callWith env op g dest v i n o k) := by
  have send : ∀ m o n, Guarded 1 0 (sendCall m o n) := fun _ _ _ => by
    unfold sendCall
    exact after inferInstance fun _ => .bind inferInstance fun _ => inferInstance
  unfold Handler.callWith
  refine room fun _ => push fun _ => after inferInstance fun _ => after inferInstance fun _ =>
    after inferInstance fun code => ?_
  split
  · infer_instance
  · refine after inferInstance fun _ => after inferInstance fun _ => after inferInstance fun _ =>
      after inferInstance fun _ => after inferInstance fun sent => ?_
    cases sent with
    | none | some callGas => infer_instance

instance (op : CallOp) : Guarded 0 0 (call env op) := by
  unfold call
  split
  · exact operands fun x => callWith _ _ _ _ _ _ _ _
  · exact operands fun x => callWith _ _ _ _ _ _ _ _

/-- **Every opcode stays on the items.** -/
theorem exec (maps : DecodeMaps) (o : Opcode) : Guarded 0 0 (o.exec env maps) := by
  cases o <;> unfold Opcode.exec <;> infer_instance

end Guarded

theorem Setup.carries_guarded (s : Setup) : s.Carries fun p => Guarded 0 0 p where
  exec := .exec s.cache.maps
  bind := .bind

/-! ## A frame -/

/-- A frame as `allocTopFrame` leaves it to the loop: the snapshot is the instance's counter. The stack is
empty, or is the one that compiled code hands over to the interpreter. -/
structure AtEntry (s : Setup) (m : Machine) : Prop where
  refund : s.env.refundSnapshot = m.refund
  room : m.stack.sp ≤ maxStack

/-- What a caller is left with: after a failure no gas, no output and the counter of the entry; after `REVERT` the
counter of the entry and the gas that was there. -/
structure Booked (refund : Int) (gas : Nat) (left : Machine) (r : ExeResult) : Prop where
  failed : r.status.isFailure = true → r.gasLeft = 0 ∧ r.output = [] ∧ r.refund = refund ∧ left.refund = refund
  reverted : r.status = .revert → r.gasLeft = gas ∧ r.refund = refund ∧ left.refund = refund

/-- **Failures and reverts of a frame**: for any tables, code, revision, gas and host, and any machine at the
frame's entry. However the frame ends, a result is set, and the failures and `REVERT` settle as they should. On
the way, in every operation of a run of any length and so at every opcode, the stack pointer is between 0 and
1024, and no cell is read that holds no item, nor any written but those and the next. -/
theorem interpret_bookkeeping (host : Host) (s : Setup) (m : Machine) (entry : AtEntry s m) :
    (∀ h m', Ends host s m h m' → ∃ left r, s.leave h m' = some (left, r) ∧ Booked m.refund m'.gas left r) ∧
    ∀ turns, ∀ v ∈ (s.interpret turns).visited (Machine.handle host) m, OnItems v.1 v.2 := by
  have room : Setup.HasRoom m := entry.room
  refine ⟨fun h m' ends => ?_, fun turns =>
    ((s.carries_guarded.interpret turns).obeys host m room.holding).visited⟩
  rcases ends.status with ⟨st, rfl, bad⟩ | ⟨st, rfl, good⟩
  · cases st with
    | success | revert => cases bad
    | _ => exact ⟨_, _, rfl, fun _ => ⟨rfl, rfl, entry.refund, entry.refund⟩, fun reverted => by cases reverted⟩
  · refine ⟨m', _, rfl, fun failed => absurd (good.symm.trans failed) (by decide), fun reverted => ?_⟩
    have same : st = .revert := reverted
    subst same
    have restored := ends.restored.trans entry.refund
    exact ⟨rfl, restored, restored⟩

/-- `PUSH1 0, PUSH1 0, REVERT`. -/
def emptyRevert : Setup :=
  .load .free .cancun ⟨.cancun, .bare 0 100, [], fun _ => 0, 7⟩ ⟨[0x60, 0, 0x60, 0, 0xfd], by decide⟩

def Machine.refunding : Machine := { Machine.entry 100 with refund := 7 }

theorem emptyRevert_bookkeeping : AtEntry emptyRevert .refunding ∧
    (∃ m' left r, Ends .idle emptyRevert .refunding (.finish .revert) m' ∧
      emptyRevert.leave (.finish .revert) m' = some (left, r) ∧ Booked 7 m'.gas left r) ∧
    ∀ v ∈ (emptyRevert.interpret 1).visited (Machine.handle .idle) .refunding, OnItems v.1 v.2 := by
  have entry : AtEntry emptyRevert .refunding := ⟨rfl, by decide⟩
  have books := interpret_bookkeeping .idle emptyRevert .refunding entry
  have ends : Ends .idle emptyRevert .refunding (.finish .revert)
      ((emptyRevert.interpret 1).run (Machine.handle .idle) .refunding).2 := ⟨1, rfl⟩
  obtain ⟨left, r, leaves, settled⟩ := books.1 _ _ ends
  exact ⟨entry, ⟨_, left, r, ends, leaves, settled⟩, books.2 1⟩

end Dtvm
