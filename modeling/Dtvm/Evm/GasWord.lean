import Dtvm.Evm.Static
import Dtvm.Effect.Contract

/-!
# Gas as a machine word

`evmc_message::gas` is a signed 64-bit number. Charges compare it as an unsigned one and subtract modulo 2^64, and
the stipend of a call is added modulo 2^64. `Machine64` runs the frame's programs on such a word.

Whatever the code and the host, the word never grows past its value at the start and never becomes negative
(`gas_conserved`). Only a call adds gas, and only after it has paid the larger surcharge for sending value; the gas
a child has used is at most what it was given, which the frame still holds.

The sources read the word as signed in a few comparisons. On the words that occur both readings are the same.
-/

namespace Dtvm

open Effect Program

/-- A frame with its gas in a 64-bit word; the gas of `frame` is not used. -/
structure Machine64 where
  frame : Machine
  gas : BitVec 64

namespace Machine64

def handle (host : Host) : Program.Handler frameSig Machine64 Halt
  | .gas, t => (.ok t.gas.toNat, t)
  | .charge n, t =>
    if t.gas.toNat < n % 2 ^ 64 then (.error (.fail .outOfGas), t)
    else (.ok (), { t with gas := t.gas - .ofNat 64 n })
  | .credit n, t => (.ok (), { t with gas := t.gas + .ofNat 64 n })
  | o, t =>
    let r := Machine.handle host o t.frame
    (r.1, { t with frame := r.2 })

variable {host : Host} {t t' : Machine64}

theorem handle_charge (host : Host) (n : Nat) (t : Machine64) : handle host (.charge n) t =
      if t.gas.toNat < n % 2 ^ 64 then (.error (.fail .outOfGas), t)
      else (.ok (), { t with gas := t.gas - .ofNat 64 n }) := rfl

theorem toNat_charged {g : BitVec 64} {n : Nat} (enough : ¬ g.toNat < n % 2 ^ 64) :
    (g - .ofNat 64 n).toNat = g.toNat - n % 2 ^ 64 :=
  BitVec.toNat_sub_of_le (BitVec.le_def.mpr (Nat.not_lt.mp enough))

/-- An operation that does not add gas. `child` tells whether it may send a child message. -/
@[reducible] def Spends (child : Bool) : FrameOp → Prop
  | .credit _ => False
  | .host (.call _) => child = true
  | _ => True

theorem handle_gas_le {child : Bool} {o : FrameOp} (spends : Spends child o) (host : Host)
    (t : Machine64) : (handle host o t).2.gas.toNat ≤ t.gas.toNat := by
  cases o with
  | credit n => exact absurd spends id
  | charge n =>
    rw [handle_charge]
    split
    · exact Nat.le_refl _
    · rename_i enough
      rw [toNat_charged enough]
      exact Nat.sub_le _ _
  | _ => exact Nat.le_refl _

end Machine64

namespace Handler

open Code Machine64

variable {env : Env} {child : Bool}

instance : Within (Spends child) returnedData := by unfold returnedData; infer_instance

instance : Within (Spends child) (sstore env) := by
  unfold sstore; infer_instance

set_option synthInstance.maxSize 256 in
instance : Within (Spends child) (selfDestruct env) := by
  unfold selfDestruct; infer_instance

end Handler

theorem May.spends {env : Env} (o : FrameOp) (h : May env false o) : Machine64.Spends true o := by
  cases o with
  | credit => cases h
  | host r =>
    cases r with
    | call => rfl
    | _ => trivial
  | _ => trivial

/-! ## Calls and creations -/

namespace Machine64

variable {host : Host} {g : Nat} {before : List HostEvent} {t : Machine64} {α : Type}

/-- The frame holds no more than `g`. -/
def AtMost (g : Nat) (t : Machine64) : Prop := t.gas.toNat ≤ g

/-- No child message was sent since `before`. -/
def Childless (before : List HostEvent) (t : Machine64) : Prop :=
  CallsSince before (fun r => ∀ m, r ≠ .call m) t.frame

/-- How a call may stop: with no more gas than at its start, and out of gas only as long as it has
sent no child message. -/
def StopsEarly (g : Nat) (before : List HostEvent) (h : Halt) (t : Machine64) : Prop :=
  AtMost g t ∧ (h = .fail .outOfGas → Childless before t)

theorem childless_handle {o : FrameOp} (spends : Spends false o) (h : Childless before t) :
    Childless before (handle host o t).2 := by
  obtain ⟨made, eq, ok⟩ := h
  by_cases asks : ∃ r, o = .host r
  · obtain ⟨r, rfl⟩ := asks
    refine ⟨made ++ [⟨r, host t.frame.trace r⟩], ?_, fun e mem => ?_⟩
    · show t.frame.trace ++ _ = _
      rw [eq, List.append_assoc]
    · rcases List.mem_append.mp mem with mem | mem
      · exact ok e mem
      · rw [List.mem_singleton.mp mem]
        rintro m rfl
        cases spends
  · have same : (handle host o t).2.frame.trace = t.frame.trace := by
      cases o with
      | host r => exact absurd ⟨r, rfl⟩ asks
      | charge n =>
        rw [handle_charge]
        split <;> rfl
      | gas | credit n => rfl
      | _ => exact Machine.handle_trace host (fun r eq => asks ⟨r, eq⟩) t.frame
    exact ⟨made, same.trans eq, ok⟩

theorem obeys_before {p : Code α} [within : Within (Spends false) p] (h : AtMost g t ∧ Childless before t) :
    Obeys (handle host) (fun _ => AtMost g) (fun _ t => AtMost g t ∧ Childless before t) (StopsEarly g before) p t := by
  have keeps : ∀ (o : FrameOp) (t : Machine64), Spends false o → AtMost g t ∧ Childless before t →
      AtMost g (handle host o t).2 ∧ Childless before (handle host o t).2 :=
    fun o t spends h => ⟨Nat.le_trans (handle_gas_le spends host t) h.1, childless_handle spends h.2⟩
  refine Obeys.of_within within h (fun _ _ _ h => h.1) keeps fun o t e t' spends h stopped => ?_
  have kept := keeps o t spends h
  rw [stopped] at kept
  exact ⟨kept.1, fun _ => kept.2⟩

/-- Operations that leave the gas alone and do not run out of it. -/
@[reducible] def Quiet : FrameOp → Prop
  | .pop _ | .push _ | .setReturnData _ | .memoryRead _ _ | .memoryWrite _ _ | .addRefund _ => True
  | _ => False

theorem obeys_quiet {p : Code α} [within : Within Quiet p] {cost : Nat} (h : AtMost g t ∧ cost ≤ t.gas.toNat) :
    Obeys (handle host) (fun _ => AtMost g) (fun _ t => AtMost g t ∧ cost ≤ t.gas.toNat) (StopsEarly g before) p t := by
  have keeps : ∀ (o : FrameOp) (t : Machine64), Quiet o → AtMost g t ∧ cost ≤ t.gas.toNat →
      AtMost g (handle host o t).2 ∧ cost ≤ (handle host o t).2.gas.toNat := by
    intro o t quiet h
    cases o with
    | charge n | credit n => cases quiet
    | _ => exact h
  refine Obeys.of_within within h (fun _ _ _ h => h.1) keeps fun o t e t' quiet h stopped => ?_
  have kept := keeps o t quiet h
  rw [stopped] at kept
  refine ⟨kept.1, ?_⟩
  rintro rfl
  cases o with
  | pop n | push v =>
    simp only [handle, Machine.handle] at stopped
    split at stopped <;> cases stopped
  | setReturnData _ | memoryRead _ _ | memoryWrite _ _ | addRefund _ => cases stopped
  | _ => cases quiet

theorem obeys_charge {cost : Nat} (h : AtMost g t ∧ cost ≤ t.gas.toNat) :
    Obeys (handle host) (fun _ => AtMost g) (fun _ => AtMost g) (StopsEarly g before) (Code.charge cost) t := by
  have whole : cost % 2 ^ 64 = cost := Nat.mod_eq_of_lt (Nat.lt_of_le_of_lt h.2 t.gas.isLt)
  have enough : ¬ t.gas.toNat < cost % 2 ^ 64 := by omega
  have paid : handle host (.charge cost) t = (.ok (), { t with gas := t.gas - .ofNat 64 cost }) := by
    rw [handle_charge, if_neg enough]
  refine Obeys.perform (S := frameSig) (o := .charge cost) ?_ ?_ ?_
  · exact h.1
  · intro _ t' eq
    rw [paid] at eq
    cases eq
    show (t.gas - _).toNat ≤ g
    rw [toNat_charged enough]
    exact Nat.le_trans (Nat.sub_le _ _) h.1
  · intro e t' eq
    rw [paid] at eq
    cases eq

end Machine64

namespace Handler

open Code Machine64

variable {host : Host} {g : Nat} {before : List HostEvent} {t : Machine64} {env : Env}

/-- The contract of a call or creation: it never holds more gas than at its start, and runs out of gas
only before it has sent a child message. -/
abbrev Frugally (host : Host) (g : Nat) (before : List HostEvent) {α : Type} (post : α → Machine64 → Prop)
    (p : Code α) (t : Machine64) : Prop :=
  Obeys (Machine64.handle host) (fun _ => AtMost g) post (StopsEarly g before) p t

variable (h : AtMost g t ∧ Childless before t)

include h

theorem obeys_fail {α : Type} {post : α → Machine64 → Prop}
    (st : Status) : Frugally host g before post (fail st) t := by
  rw [Code.fail, Frugally, Obeys]
  exact ⟨h.1, h.1, fun _ => h.2⟩

omit h in
theorem obeys_call {k : Nat} (h : AtMost g t ∧ k ≤ t.gas.toNat) (m : Message) :
    Frugally host g before (fun _ t => AtMost g t ∧ k ≤ t.gas.toNat) (Code.host (.call m)) t := ⟨h.1, h⟩

omit h in
/-- From the child message of a call on: what the child used is at most what it was given. -/
theorem sendCall_frugal {m : Message} (h : AtMost g t ∧ m.gas ≤ t.gas.toNat) (o n : Nat) :
    Frugally host g before (fun _ => AtMost g) (sendCall m o n) t := by
  refine (obeys_call h m).bind fun r t h => ?_
  have used : AtMost g t ∧ m.gas - r.gasLeft.toNat ≤ t.gas.toNat :=
    ⟨h.1, Nat.le_trans (Nat.sub_le _ _) h.2⟩
  refine (obeys_quiet used).bind fun _ t used => ?_
  refine (obeys_quiet used).bind fun _ t used => ?_
  refine (obeys_quiet used).bind fun _ t used => ?_
  refine (obeys_charge used).bind fun _ t h => ?_
  exact (obeys_quiet ⟨h, Nat.zero_le _⟩).imp (fun _ _ h => h) (fun _ _ h => h.1) fun _ _ h => h

omit h in
omit h in
theorem sendCreate_frugal (h : AtMost g t) (op : CreateOp) (value salt : Word) (input : Bytes) :
    Frugally host g before (fun _ => AtMost g) (sendCreate env op value salt input) t := by
  have looked : Frugally host g before (fun a t => AtMost g t ∧ allButOne64th env a ≤ t.gas.toNat) Code.gas t :=
    ⟨h, h, allButOne64th_le env _⟩
  refine looked.bind fun gas t h => ?_
  refine (obeys_call h _).bind fun r t h => ?_
  refine (obeys_charge ⟨h.1, Nat.le_trans (Nat.sub_le _ _) h.2⟩).bind fun _ t h => ?_
  exact (obeys_quiet ⟨h, Nat.zero_le _⟩).imp (fun _ _ h => h) (fun _ _ h => h.1) fun _ _ h => h

theorem newAccountCost_frugal (op : CallOp) (dest : Address) (value : Word) :
    Frugally host g before (fun cost t => (AtMost g t ∧ Childless before t) ∧ cost ≤ accountCreationCost)
      (newAccountCost env op dest value) t := by
  unfold newAccountCost
  split
  · refine (obeys_before h).bind fun found t h => ⟨h, ?_⟩
    split
    · exact Nat.zero_le _
    · exact Nat.le_refl _
  · exact ⟨h, Nat.zero_le _⟩

theorem chargeCallValue_frugal (op : CallOp) (dest : Address) (value : Word) :
    Frugally host g before (fun _ t => (AtMost g t ∧ Childless before t) ∧
        (op.hasValueArgs ∧ value ≠ 0 → t.gas.toNat + callValueCost ≤ g)) (chargeCallValue env op dest value) t := by
  unfold chargeCallValue
  split
  · refine (newAccountCost_frugal h op dest value).bind fun creation t h => ?_
    obtain ⟨h, bounded⟩ := h
    generalize cost_eq : (if value ≠ 0 then callValueCost else 0) + creation = cost
    have whole : cost % 2 ^ 64 = cost := by
      apply Nat.mod_eq_of_lt
      have surcharge : (if value ≠ 0 then callValueCost else 0) ≤ 9000 := by
        split
        · exact Nat.le_refl _
        · exact Nat.zero_le _
      have creation : accountCreationCost = 25000 := rfl
      omega
    refine Obeys.perform (S := frameSig) (o := .charge cost) h.1 ?_ ?_
    · intro _ t' eq
      have kept : AtMost g t' ∧ Childless before t' :=
        (obeys_before (p := Code.charge cost) h).returns (by rw [Code.charge, run_perform]; exact eq)
      refine ⟨kept, ?_⟩
      rintro ⟨-, sends⟩
      rw [handle_charge] at eq
      split at eq
      · cases eq
      · rename_i enough
        cases eq
        rw [if_pos sends] at cost_eq
        show (t.gas - _).toNat + callValueCost ≤ g
        rw [toNat_charged enough]
        have := h.1
        unfold AtMost at this
        omega
    · intro e t' eq
      exact (obeys_before (p := Code.charge cost) h).stops (by rw [Code.charge, run_perform]; exact eq)
  · rename_i none
    exact ⟨h, fun sends => absurd sends.1 none⟩

theorem capCallGas_frugal {P : Nat → Prop} (paid : P t.gas.toNat) (requested : Word) :
    Frugally host g before (fun callGas t => (AtMost g t ∧ Childless before t) ∧ P t.gas.toNat ∧ callGas ≤ t.gas.toNat)
      (capCallGas env requested) t := by
  have looked : Frugally host g before
      (fun a t => (AtMost g t ∧ Childless before t) ∧ P t.gas.toNat ∧ a = t.gas.toNat) Code.gas t :=
    ⟨h.1, h, paid, rfl⟩
  refine looked.bind fun gasLeft t h => ?_
  obtain ⟨h, paid, rfl⟩ := h
  by_cases capped : Revision.tangerineWhistle ≤ env.rev
  · simp only [if_pos capped]
    exact ⟨h, paid, Nat.le_trans (Nat.min_le_right _ _) (Nat.sub_le _ _)⟩
  · simp only [if_neg capped]
    split
    · exact obeys_fail h .outOfGas
    · rename_i enough
      exact ⟨h, paid, Nat.not_lt.mp enough⟩

/-- The stipend is less than the surcharge was, and the child gets no more than the frame holds. -/
theorem addStipend_frugal {op : CallOp} {value : Word} {callGas : Nat}
    (paid : op.hasValueArgs ∧ value ≠ 0 → t.gas.toNat + callValueCost ≤ g)
    (held : callGas ≤ t.gas.toNat) (small : g < 2 ^ 64) :
    Frugally host g before (fun sent t => (AtMost g t ∧ Childless before t) ∧
        ∀ given, sent = some given → given ≤ t.gas.toNat) (addStipend env op value callGas) t := by
  unfold addStipend
  split
  · rename_i sends
    have room := paid sends
    have surcharge : callValueCost = 9000 := rfl
    have stipend : callGasStipend = 2300 := rfl
    have grown : (t.gas + .ofNat 64 callGasStipend).toNat = t.gas.toNat + callGasStipend := by
      rw [BitVec.toNat_add, BitVec.toNat_ofNat]
      omega
    have credited : Frugally host g before (fun _ t => (AtMost g t ∧ Childless before t) ∧
        callGas + callGasStipend ≤ t.gas.toNat) (credit callGasStipend) t := by
      have childless : CallsSince before (fun r => ∀ m, r ≠ .call m) t.frame := h.2
      refine ⟨h.1, ⟨?_, childless⟩, ?_⟩
      · show (t.gas + _).toNat ≤ g
        omega
      · show callGas + _ ≤ (t.gas + _).toNat
        omega
    refine credited.bind fun _ t h => ?_
    have asked : Frugally host g before (fun _ t => (AtMost g t ∧ Childless before t) ∧
        callGas + callGasStipend ≤ t.gas.toNat) (Code.host (.getBalance env.msg.recipient)) t :=
      ⟨h.1.1, ⟨h.1.1, childless_handle (o := .host (.getBalance env.msg.recipient)) trivial h.1.2⟩, h.2⟩
    refine asked.bind fun b t h => ⟨h.1, fun given some => ?_⟩
    split at some
    · cases some
      exact h.2
    · cases some
  · exact ⟨h, fun given some => by cases some; exact held⟩

theorem callWith_frugal (small : g < 2 ^ 64) (op : CallOp)
    (requested : Word) (dest : Address) (value io is oo os : Word) :
    Frugally host g before (fun _ => AtMost g) (callWith env op requested dest value io is oo os) t := by
  unfold callWith
  refine (obeys_before h).bind fun _ t h => ?_
  refine (obeys_before h).bind fun _ t h => ?_
  refine (obeys_before h).bind fun _ t h => ?_
  refine (obeys_before h).bind fun _ t h => ?_
  refine (obeys_before h).bind fun codeAddress t h => ?_
  split
  · exact obeys_fail h .staticModeViolation
  · refine (obeys_before h).bind fun _ t h => ?_
    refine (obeys_before h).bind fun _ t h => ?_
    refine (chargeCallValue_frugal h op dest value).bind fun _ t h => ?_
    refine (capCallGas_frugal (P := fun gas => op.hasValueArgs ∧ value ≠ 0 → gas + callValueCost ≤ g)
      h.1 h.2 requested).bind fun capped t h => ?_
    refine (addStipend_frugal h.1 h.2.1 h.2.2 small).bind fun sent t h => ?_
    cases sent with
    | none => exact h.1.1
    | some callGas =>
      have held := h.2 callGas rfl
      by_cases deep : env.msg.depth ≥ maxStack
      · simp only [if_pos deep]
        exact h.1.1
      · simp only [if_neg deep]
        refine (obeys_quiet ⟨h.1.1, held⟩).bind fun input t h => ?_
        exact sendCall_frugal (m := callMessage env op dest codeAddress callGas value input) h _ _

theorem call_frugal (small : g < 2 ^ 64) (op : CallOp) :
    Frugally host g before (fun _ => AtMost g) (call env op) t := by
  unfold call
  split
  · exact (obeys_before h).bind fun x t h => callWith_frugal h small _ _ _ _ _ _ _ _
  · exact (obeys_before h).bind fun x t h => callWith_frugal h small _ _ _ _ _ _ _ _

theorem createWith_frugal (op : CreateOp) (value codeOffset codeSize salt : Word) :
    Frugally host g before (fun _ => AtMost g) (createWith env op value codeOffset codeSize salt) t := by
  unfold createWith
  refine (obeys_before h).bind fun _ t h => ?_
  refine (obeys_before h).bind fun _ t h => ?_
  refine (obeys_before h).bind fun _ t h => ?_
  split
  · exact obeys_fail h .staticModeViolation
  · refine (obeys_before h).bind fun _ t h => ?_
    by_cases deep : env.msg.depth ≥ maxStack
    · simp only [if_pos deep]
      exact h.1
    · simp only [if_neg deep]
      refine (obeys_before h).bind fun pays t h => ?_
      unfold Code.when
      split
      · refine (obeys_before h).bind fun input t h => ?_
        exact sendCreate_frugal h.1 op value salt input
      · exact h.1

theorem create_frugal (op : CreateOp) : Frugally host g before (fun _ => AtMost g) (create env op) t := by
  cases op with
  | create | create2 => exact (obeys_before h).bind fun x t h => createWith_frugal h _ _ _ _ _

end Handler

/-! ## Every opcode, and the loop -/

namespace Machine64

/-- A program that holds no more gas than it starts with, all the way. -/
class Frugal {α : Type} (p : Code α) : Prop where
  obeys : ∀ (host : Host) (g : Nat) (t : Machine64), g < 2 ^ 64 → AtMost g t →
    Obeys (handle host) (fun _ => AtMost g) (fun _ => AtMost g) (fun _ => AtMost g) p t

variable {α β : Type}

instance (p : Code α) [within : Within (Spends true) p] : Frugal p where
  obeys host g t _ h := by
    have keeps : ∀ (o : FrameOp) (t : Machine64), Spends true o → AtMost g t →
        AtMost g (handle host o t).2 :=
      fun o t spends h => Nat.le_trans (handle_gas_le spends host t) h
    refine Obeys.of_within within h (fun _ _ _ h => h) keeps fun o t e t' spends h stopped => ?_
    have kept := keeps o t spends h
    rw [stopped] at kept
    exact kept

instance (p : Code α) (f : α → Code β) [hp : Frugal p] [hf : ∀ a, Frugal (f a)] : Frugal (p >>= f) where
  obeys host g t small h := (hp.obeys host g t small h).bind fun a t h => (hf a).obeys host g t small h

instance (c : Prop) [Decidable c] (p q : Code α) [hp : Frugal p] [hq : Frugal q] :
    Frugal (if c then p else q) := by
  split
  · exact hp
  · exact hq

instance frugal_call (env : Env) (op : CallOp) : Frugal (Handler.call env op) where
  obeys _ _ t small h :=
    (Handler.call_frugal ⟨h, [], (List.append_nil t.frame.trace).symm, fun _ mem => nomatch mem⟩ small
      op).imp (fun _ _ h => h) (fun _ _ h => h) fun _ _ h => h.1

instance frugal_create (env : Env) (op : CreateOp) : Frugal (Handler.create env op) where
  obeys _ _ t _ h :=
    (Handler.create_frugal ⟨h, [], (List.append_nil t.frame.trace).symm, fun _ mem => nomatch mem⟩
      op).imp (fun _ _ h => h) (fun _ _ h => h) fun _ _ h => h.1

instance (p : Code Unit) [Frugal p] : Frugal (Handler.next p) := by
  unfold Handler.next; infer_instance

instance exec_frugal (env : Env) (maps : DecodeMaps) (o : Opcode) : Frugal (o.exec env maps) := by
  by_cases plain : o.isGasChunkTerminator = false
  · have within := o.exec_within env maps
    rw [plain] at within
    have := within.mono May.spends
    infer_instance
  · cases o <;> first | exact absurd rfl plain | (unfold Opcode.exec; infer_instance)

end Machine64

open Machine64 in
theorem Setup.carries_frugal (s : Setup) : s.Carries fun p => Frugal p where
  exec _ := inferInstance
  bind _ _ := inferInstance

namespace Handler

open Code

/-- `chargeGas` with its answer ignored: a charge that is refused changes nothing. -/
def chargeUnchecked (cost : Nat) : Code Unit := do
  let g ← gas
  if g < cost then pure () else charge cost

/-- `sendCreate` as the source has it, with the charge for the child's gas not looked at. -/
def sendCreateUnchecked (env : Env) (op : CreateOp) (value salt : Word) (input : Bytes) :
    Code Unit := do
  let g ← gas
  let callGas := allButOne64th env g
  let r ← host (.call (createMessage env op callGas value salt input))
  chargeUnchecked (callGas - r.gasLeft.toNat)
  addRefund r.gasRefund
  if r.status = .success then do
    setReturnData []
    let _ ← pop 1
    push r.createAddress.toWord
  else setReturnData r.output

theorem run_sendCreateUnchecked (host : Host) (env : Env) (op : CreateOp) (value salt : Word)
    (input : Bytes) (t : Machine64) : (sendCreateUnchecked env op value salt input).run (Machine64.handle host) t =
      (sendCreate env op value salt input).run (Machine64.handle host) t := by
  unfold sendCreateUnchecked sendCreate
  apply run_bind_congr
  rintro g t' looked
  obtain ⟨rfl, rfl⟩ : t.gas.toNat = g ∧ t = t' := by cases looked; exact ⟨rfl, rfl⟩
  apply run_bind_congr
  rintro r t' sent
  have gas : t'.gas = t.gas := by cases sent; rfl
  have within : allButOne64th env t.gas.toNat - r.gasLeft.toNat ≤ t'.gas.toNat := by
    rw [gas]
    exact Nat.le_trans (Nat.sub_le _ _) (allButOne64th_le env _)
  have charged : (chargeUnchecked (allButOne64th env t.gas.toNat - r.gasLeft.toNat)).run
        (Machine64.handle host) t' =
      (charge (allButOne64th env t.gas.toNat - r.gasLeft.toNat)).run (Machine64.handle host) t' := by
    unfold chargeUnchecked
    rw [run_bind_ok (a := t'.gas.toNat) rfl, if_neg (Nat.not_lt.mpr within)]
  rw [run_bind, run_bind, charged]

end Handler

namespace Machine64

/-- The gas, as a signed number, is not negative and not more than `g`. -/
def Between (g : BitVec 64) (t : Machine64) : Prop := 0 ≤ t.gas.toInt ∧ t.gas.toInt ≤ g.toInt

/-- The signed and the unsigned reading agree up to an amount that is not negative. -/
theorem AtMost.between {g : BitVec 64} {t : Machine64} (start : 0 ≤ g.toInt) (h : AtMost g.toNat t) : Between g t := by
  have small : 2 * g.toNat < 2 ^ 64 := by
    by_contra big
    rw [BitVec.toInt_eq_toNat_cond, if_neg big] at start
    have := g.isLt
    omega
  have le : t.gas.toNat ≤ g.toNat := h
  rw [Between, BitVec.toInt_eq_toNat_of_lt small, BitVec.toInt_eq_toNat_of_lt (by omega)]
  omega

end Machine64

open Machine64 in
/-- **Gas is conserved.** From any frame whose gas is not negative, under any host: whatever the code,
the gas is never negative and never above its first value, at any operation of a run and where the run
ends; every call and creation ends with no more gas than it began with, and runs out of gas only before
it has sent its child message; and the charge that `CreateHandler` ignores is always made. -/
theorem gas_conserved (host : Host) (t : Machine64) (start : 0 ≤ t.gas.toInt) : (∀ (s : Setup) (turns : Nat),
      (∀ v ∈ (s.interpret turns).visited (handle host) t, v.2.Between t.gas) ∧
      ((s.interpret turns).run (handle host) t).2.Between t.gas) ∧
    (∀ env op, ((Handler.call env op).run (handle host) t).2.Between t.gas ∧
      ∀ t', (Handler.call env op).run (handle host) t = (.error (.fail .outOfGas), t') → Childless t.frame.trace t') ∧
    (∀ env op, ((Handler.create env op).run (handle host) t).2.Between t.gas ∧
      ∀ t', (Handler.create env op).run (handle host) t = (.error (.fail .outOfGas), t') → Childless t.frame.trace t') ∧
    ∀ env op value salt input, (Handler.sendCreateUnchecked env op value salt input).run (handle host) t =
        (Handler.sendCreate env op value salt input).run (handle host) t := by
  have here : AtMost t.gas.toNat t := Nat.le_refl _
  have fresh : AtMost t.gas.toNat t ∧ Childless t.frame.trace t :=
    ⟨here, [], (List.append_nil t.frame.trace).symm, fun _ mem => nomatch mem⟩
  refine ⟨fun s turns => ?_, fun env op => ?_, fun env op => ?_, fun env op value salt input => ?_⟩
  · have obeys := (s.carries_frugal.interpret turns).obeys host _ t t.gas.isLt here
    exact ⟨fun v mem => (obeys.visited v mem).between start, obeys.ends.between start⟩
  · have obeys := (frugal_call env op).obeys host _ t t.gas.isLt here
    refine ⟨obeys.ends.between start, fun t' stopped => ?_⟩
    exact ((Handler.call_frugal fresh t.gas.isLt op).stops stopped).2 rfl
  · have obeys := (frugal_create env op).obeys host _ t t.gas.isLt here
    refine ⟨obeys.ends.between start, fun t' stopped => ?_⟩
    exact ((Handler.create_frugal fresh op).stops stopped).2 rfl
  · exact Handler.run_sendCreateUnchecked host env op value salt input t

/-- `CALL` with 1000 gas, one byte of input and two of output. -/
def sendOnce : Setup :=
  .load .free .cancun ⟨.cancun, .bare 0 100000, [], fun _ => 0, 0⟩
    ⟨[0x60, 2, 0x60, 0, 0x60, 1, 0x60, 0, 0x60, 0, 0x60, 7, 0x61, 3, 0xe8, 0xf1], by decide⟩

/-- A host whose calls leave 400 gas. -/
def Host.spending : Host := fun t r => match r with
  | .call _ => ⟨.success, 400, 0, [5], 0⟩
  | r => Host.idle t r

theorem gas_conserved_sendOnce : (0 : Int) ≤ (100000 : BitVec 64).toInt ∧
    ((sendOnce.interpret 9).run (Machine64.handle .spending) ⟨.entry 0, 100000⟩).2.gas = 99397 ∧
    ((sendOnce.interpret 9).run (Machine64.handle .spending) ⟨.entry 0, 100000⟩).2.Between 100000 :=
  ⟨by decide, by decide +kernel, ((gas_conserved .spending ⟨.entry 0, 100000⟩ (by decide)).1 sendOnce 9).2⟩

end Dtvm
