import Dtvm.Jit.Calls
import Dtvm.Evm.Memory

/-!
# Compiled and interpreted handlers on one machine

A handler of the interpreter and its compiled counterpart agree on a machine (`Agree`) if they send their host the
same messages, and both fail or both leave the same machine, the record of host calls aside: reading an account's
code leaves no trace in a host (`Host.IgnoresCodeReads`), and the interpreter does it where compiled code does not.

A call or a creation takes one of three courses (`Course`): it is refused, or goes on without a message, or sends
one. Each side's course is found by running it (`Course.Taken`), and agreement is a matter of the two courses
(`Course.Taken.agree_iff`).
-/

namespace Dtvm

/-! ## What a host sees -/

def HostEvent.message : HostEvent → Option Message
  | ⟨.call m, _⟩ => some m
  | _ => none

def messages (trace : List HostEvent) : List Message := trace.filterMap HostEvent.message

/-- The record once the host has answered one more request. -/
def Host.asked (host : Host) (t : List HostEvent) (r : HostReq) : List HostEvent := t ++ [⟨r, host t r⟩]

theorem messages_asked {host : Host} {t : List HostEvent} {r : HostReq}
    (quiet : HostEvent.message ⟨r, host t r⟩ = none) : messages (host.asked t r) = messages t := by
  rw [Host.asked, messages, List.filterMap_append, List.filterMap_cons_none quiet]
  exact List.append_nil _

def HostEvent.isCodeRead (e : HostEvent) : Bool :=
  match e.req with
  | .copyCode _ _ _ => true
  | _ => false

def seen (trace : List HostEvent) : List HostEvent := trace.filter fun e => !e.isCodeRead

/-- Reading an account's code has no effect on what the host answers later. -/
def Host.IgnoresCodeReads (host : Host) : Prop :=
  ∀ t t' r, seen t = seen t' → host t r = host t' r

/-! ## Agreement -/

def SameAfter (m w : Machine) : Prop := { m with trace := w.trace } = w

theorem sameAfter_withTrace (m w : Machine) (t t' : List HostEvent) :
    SameAfter { m with trace := t } { w with trace := t' } ↔ SameAfter m w := by
  cases w
  simp only [SameAfter, Machine.mk.injEq, and_true]

theorem SameAfter.gas_eq {m w : Machine} (h : SameAfter m w) : m.gas = w.gas := by
  have gas := congrArg Machine.gas h
  exact gas

/-- The same messages were sent, and both failed or both go on alike. -/
def Agree : Except Halt Unit × Machine → Except Halt Unit × Machine → Prop
  | (.ok _, m), (.ok _, w) => messages m.trace = messages w.trace ∧ SameAfter m w
  | (.error _, m), (.error _, w) => messages m.trace = messages w.trace
  | _, _ => False

theorem Agree.messages_eq {r r' : Except Halt Unit × Machine} (h : Agree r r') :
    messages r.2.trace = messages r'.2.trace := by
  obtain ⟨e | u, m⟩ := r <;> obtain ⟨e' | u', w⟩ := r'
  · exact h
  · exact h.elim
  · exact h.elim
  · exact h.1

/-- The machine with a zero pushed and no return data: where the interpreter starts a call or a creation, and
where both end if they send no message. -/
def opened (w : Machine) : Machine := { w with stack := w.stack.push 0, returnData := [] }

/-- The machine on its way through a call or a creation, with the stack and return data of a side. -/
@[reducible] def Machine.side (m : Machine) (st : Stack) (rd : Bytes) (gas : Nat) (t : List HostEvent) : Machine :=
  { m with stack := st, returnData := rd, gas := gas, trace := t }

/-- What a call or a creation comes to. `paid` is the machine when it has paid and asked for everything, and
`done` what a result makes of it. -/
inductive Course where
  | refused
  | declined (paid : Machine)
  | sent (paid : Machine) (msg : Message) (done : CallResult → Machine)

namespace Course

/-- The end of a run that sends a message. -/
def delivered (host : Host) (paid : Machine) (msg : Message) (done : CallResult → Machine) :
    Except Halt Unit × Machine :=
  (.ok (), { done (host paid.trace (.call msg)) with trace := host.asked paid.trace (.call msg) })

/-- A run from where `before` was recorded takes this course. -/
def Taken (host : Host) (before : List HostEvent) (r : Except Halt Unit × Machine) : Course → Prop
  | .refused => ∃ st t, r = (.error (.fail st), t) ∧ messages t.trace = messages before
  | .declined paid => messages paid.trace = messages before ∧ r = (.ok (), opened paid)
  | .sent paid msg done => messages paid.trace = messages before ∧ r = delivered host paid msg done

def Matches (host : Host) : Course → Course → Prop
  | .refused, .refused => True
  | .declined p, .declined q => SameAfter (opened p) (opened q)
  | .sent p msg done, .sent q msg' done' =>
    msg = msg' ∧ SameAfter (done (host p.trace (.call msg))) (done' (host q.trace (.call msg')))
  | _, _ => False

theorem messages_sent (host : Host) {trace before : List HostEvent} (quiet : messages trace = messages before)
    (msg : Message) : messages (host.asked trace (.call msg)) = messages before ++ [msg] := by
  rw [Host.asked, messages, List.filterMap_append, ← messages, quiet]
  rfl

/-- **Two runs agree if their courses match**, and only then. -/
theorem Taken.agree_iff {host : Host} {before : List HostEvent} {r r' : Except Halt Unit × Machine} {c c' : Course}
    (left : c.Taken host before r) (right : c'.Taken host before r') : Agree r r' ↔ c.Matches host c' := by
  have apart : ∀ {a b : List Message} {msg : Message}, a = messages before → b = messages before ++ [msg] → a ≠ b := by
    rintro a b msg rfl rfl same
    simpa using congrArg List.length same
  cases c with
  | refused =>
    obtain ⟨st, t, rfl, quiet⟩ := left
    cases c' with
    | refused =>
      obtain ⟨st', t', rfl, quiet'⟩ := right
      exact iff_of_true (quiet.trans quiet'.symm) trivial
    | declined q | sent q msg done =>
      obtain ⟨-, rfl⟩ := right
      exact Iff.rfl
  | declined p =>
    obtain ⟨quiet, rfl⟩ := left
    cases c' with
    | refused =>
      obtain ⟨st', t', rfl, -⟩ := right
      exact Iff.rfl
    | declined q =>
      obtain ⟨quiet', rfl⟩ := right
      exact and_iff_right (quiet.trans quiet'.symm)
    | sent q msg done =>
      obtain ⟨quiet', rfl⟩ := right
      exact iff_of_false (fun agree => apart quiet (messages_sent host quiet' _) agree.1) id
  | sent p msg done =>
    obtain ⟨quiet, rfl⟩ := left
    cases c' with
    | refused =>
      obtain ⟨st', t', rfl, -⟩ := right
      exact Iff.rfl
    | declined q =>
      obtain ⟨quiet', rfl⟩ := right
      exact iff_of_false (fun agree => apart quiet' (messages_sent host quiet _) agree.1.symm) id
    | sent q msg' done' =>
      obtain ⟨quiet', rfl⟩ := right
      refine and_congr ?_ (sameAfter_withTrace _ _ _ _)
      rw [messages_sent host quiet, messages_sent host quiet', List.append_cancel_left_eq, List.singleton_inj]

open Classical in
/-- The course by its conditions: `passes` the checks, and is `offered` to the host. -/
noncomputable def of (passes offered : Prop) (paid : Machine) (msg : Message) (done : CallResult → Machine) : Course :=
  if passes then if offered then .sent paid msg done else .declined paid else .refused

section

open Effect Program

variable {host : Host} {passes offered : Prop} {paid : Machine} {msg : Message} {done : CallResult → Machine}

theorem of_eq_refused_iff : of passes offered paid msg done = .refused ↔ ¬ passes := by
  unfold of
  split
  · split <;> simp [*]
  · simp [*]

theorem Matches.refused_iff {c c' : Course} (h : c.Matches host c') : c = .refused ↔ c' = .refused := by
  cases c <;> cases c' <;> first | exact h.elim | simp

/-- Two courses under the same conditions, that have paid the same. -/
theorem of_matches_iff {passes' offered' : Prop} {t : List HostEvent} {msg' : Message} {done' : CallResult → Machine}
    (pass : passes' ↔ passes) (offer : offered' ↔ offered) :
    (of passes' offered' { paid with trace := t } msg' done').Matches host (of passes offered paid msg done) ↔
      (passes ∧ offered → msg' = msg ∧
        SameAfter (done' (host t (.call msg'))) (done (host paid.trace (.call msg)))) := by
  obtain rfl := propext pass
  obtain rfl := propext offer
  unfold of
  by_cases p : passes'
  · by_cases o : offered'
    · simp [p, o, Matches]
    · rw [if_pos p, if_pos p, if_neg o, if_neg o]
      exact iff_of_true rfl fun both => absurd both.2 o
  · simp [p, Matches]

variable {before : List HostEvent} {m t e : Machine} {α : Type} {p : Code α} {f : α → Code Unit} {x : α} {st : Status}

/-- A step that goes well where the course passes, and otherwise stops the run. -/
theorem of_step {fine : Prop} [Decidable fine]
    (ran : p.run (Machine.handle host) m = if fine then (.ok x, t) else (.error (.fail st), e))
    (quiet : messages e.trace = messages before) (needs : passes → fine)
    (next : fine → (of passes offered paid msg done).Taken host before ((f x).run (Machine.handle host) t)) :
    (of passes offered paid msg done).Taken host before ((p >>= f).run (Machine.handle host) m) := by
  by_cases go : fine
  · rw [run_bind_ok (ran.trans (if_pos go))]
    exact next go
  · rw [of_eq_refused_iff.mpr fun h => go (needs h), run_bind_error (ran.trans (if_neg go))]
    exact ⟨st, e, rfl, quiet⟩

theorem of_taken {r : Except Halt Unit × Machine} (quiet : messages paid.trace = messages before) (go : passes)
    (declines : ¬ offered → r = (.ok (), opened paid)) (sends : offered → r = delivered host paid msg done) :
    (of passes offered paid msg done).Taken host before r := by
  rw [of, if_pos go]
  split
  · next o => exact ⟨quiet, sends o⟩
  · next o => exact ⟨quiet, declines o⟩

theorem of_guard {bad : Prop} [Decidable bad] {p q : Code Unit}
    (stops : p.run (Machine.handle host) m = (.error (.fail st), m))
    (quiet : messages m.trace = messages before) (needs : passes → ¬ bad)
    (next : ¬ bad → (of passes offered paid msg done).Taken host before (q.run (Machine.handle host) m)) :
    (of passes offered paid msg done).Taken host before ((if bad then p else q).run (Machine.handle host) m) := by
  by_cases stop : bad
  · rw [of_eq_refused_iff.mpr fun h => needs h stop, if_pos stop]
    exact ⟨st, m, stops, quiet⟩
  · rw [if_neg stop]
    exact next stop

end

end Course

/-! ## What both begin and end with -/

namespace Jit

open Effect Program Code

variable {host : Host} {m w : Machine}

theorem run_bind_operands {α : Type} (n : Nat) (f : (Fin n → Word) → Code α) :
    (Code.operands n >>= f).run (Machine.handle host) m =
      if m.stack.sp < n then (.error (.fail .stackUnderflow), m)
      else (f fun k => m.stack.peek k).run (Machine.handle host) { m with stack := m.stack.drop n } := by
  rw [run_bind, run_operands]
  by_cases short : m.stack.sp < n
  · rw [if_pos short, if_pos short]
  · rw [if_neg short, if_neg short]

theorem run_bind_pop {α : Type} {n : Nat} (enough : n ≤ m.stack.sp) (f : (Fin n → Word) → Code α) :
    (Code.pop n >>= f).run (Machine.handle host) m =
      (f fun k => m.stack.peek k).run (Machine.handle host) { m with stack := m.stack.drop n } :=
  run_bind_ok ((run_pop host m n).trans (if_neg (Nat.not_lt.mpr enough))) f

theorem room_after_pop {n : Nat} (some : 0 < n) (enough : n ≤ w.stack.sp)
    (bounded : w.stack.sp ≤ maxStack) : (w.stack.drop n).sp + 1 ≤ maxStack := by
  show w.stack.sp - n + 1 ≤ maxStack
  omega

theorem run_push_of_room (room : m.stack.sp + 1 ≤ maxStack) (v : Word) :
    (Code.push v).run (Machine.handle host) m = (.ok (), { m with stack := m.stack.push v }) := by
  rw [run_push, if_neg (Nat.not_lt.mpr room)]

theorem run_replaceTop {s : Stack} {a : Word} (top : m.stack = s.push a) (room : s.sp + 1 ≤ maxStack) (v : Word) :
    (do let _ ← Code.pop 1; Code.push v : Code Unit).run (Machine.handle host) m =
      (.ok (), { m with stack := s.push v }) := by
  rw [run_bind_pop (by simp [top, Stack.push]),
    run_push_of_room (by simpa [top, Stack.push, Stack.drop] using room), top]
  congr 2
  simp only [Stack.push, Stack.drop, Nat.add_sub_cancel, Stack.mk.injEq, and_true]
  funext i
  split <;> rfl

theorem run_opening (room : w.stack.sp + 1 ≤ maxStack) (p : Code Unit) :
    (do Code.room; Code.push 0; Code.setReturnData []; p : Code Unit).run (Machine.handle host) w =
      p.run (Machine.handle host) (opened w) := by
  have free := run_room host w
  rw [if_neg (Nat.not_lt.mpr room)] at free
  rw [run_bind_ok free, run_bind_ok (run_push_of_room room 0), run_bind_ok (run_setReturnData host _ _)]
  rfl

/-- **A light failure.** The interpreter returns with what it has pushed; compiled code does the same at its end. -/
theorem run_lightFailure (room : w.stack.sp + 1 ≤ maxStack) :
    (lightFailure >>= Code.push).run (Machine.handle host) w = (.ok (), opened w) := by
  unfold lightFailure
  simp only [bind_assoc, pure_bind]
  rw [run_bind_ok (run_setReturnData host _ _)]
  exact run_push_of_room (by exact room) _

/-- Both sides take the same operands. -/
theorem operands_agree_iff (n : Nat) {f g : (Fin n → Word) → Code Unit} {P : Prop}
    (next : n ≤ w.stack.sp → (Agree
      ((f fun k => w.stack.peek k).run (Machine.handle host) { w with stack := w.stack.drop n })
      ((g fun k => w.stack.peek k).run (Machine.handle host) { w with stack := w.stack.drop n }) ↔ P)) :
    Agree ((Code.operands n >>= f).run (Machine.handle host) w)
      ((Code.operands n >>= g).run (Machine.handle host) w) ↔ (n ≤ w.stack.sp → P) := by
  rw [run_bind_operands, run_bind_operands]
  split
  · next short => exact iff_of_true rfl fun enough => absurd short (Nat.not_lt.mpr enough)
  · next enough => rw [next (not_lt.mp enough), forall_prop_of_true (not_lt.mp enough)]

end Jit

end Dtvm
