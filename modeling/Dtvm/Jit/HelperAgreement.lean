import Dtvm.Jit.CallAgreement
import Dtvm.Jit.Helpers

/-!
# Compiled and interpreted copies, hashes, logs and accesses to state

The helpers of compiled code are compared with the interpreter's handlers on one machine, host calls included
(`SameCourse`): both fail, or both end in the same machine. A region that does not fit 64 bits stops the
interpreter at its check of the memory; compiled code stops before its helper, or has the helper check a region
that ends at the largest 64-bit number (`alike_saturated`).

They are alike but for one thing (`helpers_alike`): reading the code of an account, compiled code asks for no
offset above `maxBufferSize`. The two then make different host calls (`CappedRead`).
-/

namespace Dtvm.Jit

open Effect Program Code

variable {host : Host} {α β γ δ : Type}

/-! ## The same course -/

/-- Both runs go on in the same machine, both end the frame alike, or both fail. -/
inductive SameCourse (go : α → β → Prop) : Except Halt α × Machine → Except Halt β × Machine → Prop
  | going {a : α} {b : β} {m : Machine} (h : go a b) : SameCourse go (.ok a, m) (.ok b, m)
  | finished {s : Status} {m : Machine} : SameCourse go (.error (.finish s), m) (.error (.finish s), m)
  | failed {s t : Status} {m w : Machine} : SameCourse go (.error (.fail s), m) (.error (.fail t), w)

/-- The two programs have the same course from a machine on. -/
def Alike (host : Host) (go : α → β → Prop) (m : Machine) (p : Code α) (q : Code β) : Prop :=
  SameCourse go (p.run (Machine.handle host) m) (q.run (Machine.handle host) m)

namespace Alike

variable {go : α → β → Prop} {p : Code α} {q : Code β} {f : α → Code γ} {g : β → Code δ} {m : Machine}

theorem bind_into {goal : Except Halt γ × Machine → Except Halt δ × Machine → Prop} (h : Alike host go m p q)
    (finishes : ∀ s m, goal (.error (.finish s), m) (.error (.finish s), m))
    (fails : ∀ s t m w, goal (.error (.fail s), m) (.error (.fail t), w))
    (next : ∀ a b m', go a b → q.run (Machine.handle host) m = (.ok b, m') →
      goal ((f a).run (Machine.handle host) m') ((g b).run (Machine.handle host) m')) :
    goal ((p >>= f).run (Machine.handle host) m) ((q >>= g).run (Machine.handle host) m) := by
  rw [run_bind, run_bind]
  revert h next
  unfold Alike
  generalize p.run (Machine.handle host) m = r
  generalize q.run (Machine.handle host) m = r'
  intro h next
  cases h with
  | going h => exact next _ _ _ h rfl
  | finished => exact finishes _ _
  | failed => exact fails _ _ _ _

theorem bind {go' : γ → δ → Prop} (h : Alike host go m p q)
    (next : ∀ a b m', go a b → q.run (Machine.handle host) m = (.ok b, m') → Alike host go' m' (f a) (g b)) :
    Alike host go' m (p >>= f) (q >>= g) :=
  h.bind_into (fun _ _ => .finished) (fun _ _ _ _ => .failed) next

theorem same {go : α → α → Prop} (p : Code α) (refl : ∀ a, go a a) : Alike host go m p p := by
  unfold Alike
  obtain ⟨e | a, m⟩ := p.run (Machine.handle host) m
  · cases e with
    | fail s => exact .failed
    | finish s => exact .finished
  · exact .going (refl a)

theorem after (p : Code α) {f : α → Code γ} {g : α → Code δ} {go : γ → δ → Prop}
    (next : ∀ a m', p.run (Machine.handle host) m = (.ok a, m') → Alike host go m' (f a) (g a)) :
    Alike host go m (p >>= f) (p >>= g) := by
  have common : Alike host (fun a b => a = b) m p p := .same p fun _ => rfl
  refine common.bind ?_
  rintro a _ m' rfl ran
  exact next a m' ran

theorem keeping {go' : α → γ → Prop} {c : γ} (h : Alike host go m p q) (keeps : ∀ a, go' a c) :
    Alike host go' m p (q >>= fun _ => pure c) := by
  rw [← bind_pure p]
  exact h.bind fun a b m' _ _ => .going (keeps a)

theorem self {go : α → γ → Prop} {c : γ} (p : Code α) (keeps : ∀ a, go a c) :
    Alike host go m p (p >>= fun _ => pure c) :=
  (same p fun _ => trivial : Alike host (fun _ _ => True) m p p).keeping keeps

end Alike

/-! ## Checks of the memory -/

variable {v offset size : Word} {m : Machine}

/-- **A region that is narrowed to the largest number.** -/
theorem alike_saturated (offset size : Word) (m : Machine) :
    Alike host (fun _ b => b = true) m (Handler.checkMemoryExpandAndChargeGas offset size)
      (expandMemoryChecked (saturate offset) (saturate size)) := by
  rw [Alike, Handler.run_checkMemoryExpandAndChargeGas, run_expandSaturated]
  split
  · exact .going rfl
  · exact .failed

theorem alike_region (fits : Fits offset size) (m : Machine) :
    Alike host (fun _ b => b = true) m (Handler.checkMemoryExpandAndChargeGas offset size)
      (expandMemoryChecked (Handler.regionOffset offset size.low64) size.low64) := by
  have saturated : Alike host _ m _ _ := alike_saturated offset size m
  rwa [Alike, run_expandSaturated, ← run_expandMemoryChecked fits] at saturated

theorem course_normalized {g : Nat × Nat → Code β} {go : α → β → Prop} {r : Except Halt α × Machine}
    (next : Fits offset size →
      SameCourse go r ((g (Handler.regionOffset offset size.low64, size.low64)).run (Machine.handle host) m))
    (stops : ¬ Fits offset size → ∃ s w, r = (.error (.fail s), w)) :
    SameCourse go r ((normalizeOffsetWithSize offset size >>= g).run (Machine.handle host) m) := by
  by_cases fits : Fits offset size
  · rw [run_bind_ok ((run_normalize offset size m).trans (if_pos fits))]
    exact next fits
  · obtain ⟨s, w, rfl⟩ := stops fits
    rw [run_bind_error ((run_normalize offset size m).trans (if_neg fits))]
    exact .failed

theorem stops_of_not_fits {f : Unit → Code α} (fits : ¬ Fits offset size) : ∃ s w,
    (Handler.checkMemoryExpandAndChargeGas offset size >>= f).run (Machine.handle host) m = (.error (.fail s), w) :=
  ⟨_, _, run_bind_error (run_checkMemory_of_not_fits fits m) f⟩

theorem expanded_room {offset size : Nat} (some : size ≠ 0) {b : Bool} {m' : Machine}
    (ran : (expandMemoryChecked offset size).run (Machine.handle host) m = (.ok b, m')) :
    offset + size ≤ m'.memory.length ∧ size ≤ maxRequiredMemorySize := by
  rw [expandMemoryChecked, if_neg some, run_expandTo, calcRequiredMemorySize] at ran
  split at ran
  · next none => cases ran
  · next required reached =>
    split at reached
    · cases reached
    · cases reached
      split at ran
      · cases ran
      · cases ran
        have bound := Machine.length_grow m (offset + size)
        have up : offset + size ≤ roundUp (offset + size) := by
          unfold roundUp
          omega
        omega

/-! ## Copies -/

theorem run_chargeWordCopyGas (size : Nat) (m : Machine) : (chargeWordCopyGas size).run (Machine.handle host) m =
      (Handler.copyCodeAndChargeGas size).run (Machine.handle host) m := by
  have cost : (if size = 0 then 0 else numWords size * Handler.wordCopyCost) =
      numWords size * Handler.wordCopyCost := by
    split
    · next zero =>
      rw [zero]
      rfl
    · rfl
  unfold chargeWordCopyGas Handler.copyCodeAndChargeGas
  rw [cost, Code.when]
  split
  · rfl
  · next free =>
    rw [not_not] at free
    rw [free, run_charge, if_neg (Nat.not_lt_zero _)]
    rfl

theorem alike_wordCopyGas (size : Nat) (m : Machine) :
    Alike host (fun _ _ => True) m (Handler.copyCodeAndChargeGas size) (chargeWordCopyGas size) := by
  rw [Alike, run_chargeWordCopyGas]
  exact Alike.same _ fun _ => trivial

theorem overwrite_nil (buffer : Bytes) (offset : Nat) : overwrite buffer offset [] = buffer := by
  rw [overwrite, List.append_nil, List.length_nil, Nat.add_zero, List.take_append_drop]

theorem padded_eq (data : Bytes) (offset size : Nat) : (data.drop offset).take (min size (data.length - offset)) ++
        List.replicate (size - min size (data.length - offset)) 0 = Handler.paddedSlice data offset size := by
  have part : (data.drop offset).take (min size (data.length - offset)) = (data.drop offset).take size := by
    rw [List.take_eq_take_iff, List.length_drop]
    omega
  simp only [Handler.paddedSlice]
  rw [part, List.length_take, List.length_drop]

def copyInto (destOffset size : Nat) (bytes : Bytes) : Code Unit :=
  if size = 0 then pure ()
  else do
    let expanded ← expandMemoryChecked destOffset size
    if expanded = false then pure ()
    else do
      chargeWordCopyGas size
      memoryWrite destOffset bytes

/-- **A copy into the memory.** The interpreter writes nothing where compiled code has returned. -/
theorem alike_copy {dest size : Word} {destOffset n : Nat}
    (check : Alike host (fun _ b => b = true) m (Handler.checkMemoryExpandAndChargeGas dest size)
      (expandMemoryChecked destOffset n))
    (size_eq : n = uint256ToUint64 size) (dest_eq : n ≠ 0 → destOffset = uint256ToUint64 dest)
    {bytes bytes' : Bytes} (none : n = 0 → bytes = []) (some : n ≠ 0 → bytes = bytes') : Alike host (fun _ _ => True) m
      (do
        Handler.checkMemoryExpandAndChargeGas dest size
        Handler.copyCodeAndChargeGas (uint256ToUint64 size)
        memoryWrite (uint256ToUint64 dest) bytes)
      (copyInto destOffset n bytes') := by
  rw [copyInto, ← size_eq]
  by_cases zero : n = 0
  · have empty : size = 0 := saturate_eq_zero.mp ((saturate_eq size).trans (size_eq.symm.trans zero))
    rw [if_pos zero, none zero, zero, empty]
    have free := run_charge host m 0
    rw [if_neg (Nat.not_lt_zero _)] at free
    have writes := run_memoryWrite host { m with gas := m.gas - 0 } (uint256ToUint64 dest) []
    rw [overwrite_nil] at writes
    rw [Alike, Handler.checkMemoryExpandAndChargeGas, if_pos rfl, pure_bind,
      show Handler.copyCodeAndChargeGas 0 = charge 0 from rfl, run_bind_ok free, writes]
    exact .going trivial
  · rw [if_neg zero]
    refine check.bind fun _ b m₁ expanded _ => ?_
    rw [if_neg (by rw [expanded]; exact Bool.noConfusion), some zero, dest_eq zero]
    exact (alike_wordCopyGas n m₁).bind fun _ _ m₂ _ _ => .same _ fun _ => trivial

theorem padded_empty (data : Bytes) (offset : Nat) : Handler.paddedSlice data offset 0 = [] := by
  simp [Handler.paddedSlice]

theorem callDataCopy_alike (env : Env) (m : Machine) :
    Alike host (fun _ _ => True) m (Handler.callDataCopy env) (handleCallDataCopy env) := by
  refine .after (Code.operands 3) fun x m' _ => ?_
  have helper (destOffset offset size : Nat) : evmSetCallDataCopy env destOffset offset size =
      copyInto destOffset size (Handler.paddedSlice env.msg.input offset size) := by
    have start : env.msg.input.drop (min offset env.msg.input.length) = env.msg.input.drop offset := by
      rcases Nat.le_total offset env.msg.input.length with inside | beyond
      · rw [Nat.min_eq_left inside]
      · rw [Nat.min_eq_right beyond, List.drop_eq_nil_of_le beyond, List.drop_length]
    have count : (if min offset env.msg.input.length < env.msg.input.length
        then min size (env.msg.input.length - min offset env.msg.input.length) else 0) =
          min size (env.msg.input.length - offset) := by
      split <;> omega
    rw [evmSetCallDataCopy, copyInto]
    dsimp only
    rw [count, start, padded_eq]
  rw [helper]
  refine alike_copy (alike_saturated _ _ m') (saturate_eq _) (fun _ => saturate_eq _) ?_ fun _ => ?_
  · intro zero
    rw [← saturate_eq (x 2), zero, padded_empty]
  · rw [saturate_eq, saturate_eq]

theorem codeCopy_alike (env : Env) (m : Machine) :
    Alike host (fun _ _ => True) m (Handler.codeCopy env) (handleCodeCopy env) := by
  refine .after (Code.operands 3) fun x m' _ => ?_
  have helper (destOffset offset size : Nat) : evmSetCodeCopy env destOffset offset size =
      copyInto destOffset size (Handler.paddedSlice env.code offset size) := by
    rw [evmSetCodeCopy, copyInto]
    dsimp only
    split
    · rfl
    · by_cases inside : offset < env.code.length
      · simp only [if_pos inside]
        rw [padded_eq]
      · have beyond : Handler.paddedSlice env.code offset size = List.replicate size 0 := by
          simp [Handler.paddedSlice, List.drop_eq_nil_of_le (Nat.le_of_not_lt inside)]
        simp only [if_neg inside]
        rw [beyond]
  refine course_normalized (fun fits => ?_) stops_of_not_fits
  have size_eq : (x 2).low64 = uint256ToUint64 (x 2) := by
    rw [← saturate_eq, saturate_of_lt fits.1]
  dsimp only
  rw [helper]
  refine alike_copy (alike_region fits m') size_eq ?_ ?_ fun _ => ?_
  · intro some
    rw [Handler.regionOffset, if_neg some, ← saturate_eq, saturate_of_lt (fits.2 some)]
  · intro zero
    rw [← size_eq, zero, padded_empty]
  · rw [saturate_eq, size_eq]

theorem returnData_check (offset size : Word) {length : Nat} (vector : length < 2 ^ 63) :
    (saturate offset > length ∨ saturate size > length ∨ (saturate offset + saturate size) % 2 ^ 64 > length) ↔
      (offset.toNat > length ∨ size.toNat > length ∨ (offset + size).toNat > length) := by
  have narrow (v : Word) : saturate v > length ↔ v.toNat > length := by
    by_cases small : v.toNat < 2 ^ 64
    · rw [saturate_of_lt small, low64_of_lt small]
    · rw [saturate_of_ge (Nat.le_of_not_lt small)]
      omega
  rw [narrow, narrow]
  by_cases first : offset.toNat > length
  · simp [first]
  · by_cases second : size.toNat > length
    · simp [second]
    · have sum : (offset + size).toNat = offset.toNat + size.toNat := by
        rw [BitVec.toNat_add]
        exact Nat.mod_eq_of_lt (by omega)
      have low (v : Word) (small : ¬ v.toNat > length) : saturate v = v.toNat := by
        rw [saturate_of_lt (by omega), low64_of_lt (by omega)]
      rw [sum, low _ first, low _ second, Nat.mod_eq_of_lt (by omega)]

theorem returnDataCopy_alike (vector : m.returnData.length < 2 ^ 63) :
    Alike host (fun _ _ => True) m Handler.returnDataCopy handleReturnDataCopy := by
  unfold Alike Handler.returnDataCopy handleReturnDataCopy
  rw [run_bind_operands, run_bind_operands]
  split
  · exact .failed
  · generalize (fun k : Fin 3 => m.stack.peek k) = x
    have read : Code.returnData.run (Machine.handle host) { m with stack := m.stack.drop 3 } =
        (.ok m.returnData, { m with stack := m.stack.drop 3 }) := rfl
    unfold evmSetReturnDataCopy
    rw [run_bind_ok read, run_bind_ok read]
    have checks := returnData_check (x 1) (x 2) vector
    by_cases far : (x 1).toNat > m.returnData.length ∨ (x 2).toNat > m.returnData.length ∨
        (x 1 + x 2).toNat > m.returnData.length
    · rw [if_pos far, if_pos (checks.mpr far)]
      exact .failed
    · rw [if_neg far, if_neg fun h => far (checks.mp h)]
      refine alike_copy (alike_saturated _ _ _) (saturate_eq _) (fun _ => saturate_eq _) ?_ fun _ => ?_
      · intro zero
        rw [← saturate_eq (x 2), zero, List.take_zero]
      · rw [saturate_eq, saturate_eq, List.take_eq_take_iff, List.length_drop]
        omega

/-! ## Code of other accounts -/

def afterCodeRead (host : Host) (w : Machine) (address : Address) (destOffset offset size : Nat) : Machine :=
  { w with
    memory := overwrite w.memory destOffset
      (Handler.paddedSlice (host w.trace (.copyCode address offset size)) 0 size)
    trace := w.trace ++ [⟨.copyCode address offset size, host w.trace (.copyCode address offset size)⟩] }

/-- Both stop alike, or both read code of the same account last, into the same memory, the interpreter from an
offset that is too large for compiled code. -/
inductive CappedRead (host : Host) : Except Halt Unit × Machine → Except Halt β × Machine → Prop
  | finished {s : Status} {m : Machine} : CappedRead host (.error (.finish s), m) (.error (.finish s), m)
  | failed {s t : Status} {m w : Machine} : CappedRead host (.error (.fail s), m) (.error (.fail t), w)
  | read {b : β} (w : Machine) (address : Address) (destOffset offset size : Nat)
      (capped : maxBufferSize < offset) :
      CappedRead host (.ok (), afterCodeRead host w address destOffset offset size)
        (.ok b, afterCodeRead host w address destOffset maxBufferSize size)

theorem run_codeRead (address : Address) (destOffset offset size : Nat) (w : Machine) :
    (do
      let copied ← Code.host (.copyCode address offset size)
      memoryWrite destOffset (Handler.paddedSlice copied 0 size) : Code Unit).run (Machine.handle host) w =
      (.ok (), afterCodeRead host w address destOffset offset size) := rfl

/-- **Code of another account**, compared in any way that stops and the last read agree with. -/
theorem extCodeCopy_into (env : Env) {address : Address} {dest offset size : Word}
    {goal : Except Halt Unit × Machine → Except Halt Unit × Machine → Prop}
    (finishes : ∀ s m, goal (.error (.finish s), m) (.error (.finish s), m))
    (fails : ∀ s t m w, goal (.error (.fail s), m) (.error (.fail t), w))
    (nothing : size = 0 → ∀ w, goal (.ok (), w) (.ok (), w)) (reads : size ≠ 0 → ∀ w, goal
      (.ok (), afterCodeRead host w address (saturate dest) (saturate offset) (saturate size))
      (.ok (), afterCodeRead host w address (saturate dest) (min (saturate offset) maxBufferSize) (saturate size))) :
    goal
      ((do
        Handler.checkMemoryExpandAndChargeGas dest size
        Handler.copyCodeAndChargeGas (uint256ToUint64 size)
        Handler.chargeAccountAccess env address
        if uint256ToUint64 size > 0 then do
          let copied ← Code.host (.copyCode address (uint256ToUint64 offset) (uint256ToUint64 size))
          memoryWrite (uint256ToUint64 dest) (Handler.paddedSlice copied 0 (uint256ToUint64 size))
        else pure () : Code Unit).run (Machine.handle host) m)
      ((evmSetExtCodeCopy env address (saturate dest) (saturate offset) (saturate size)).run
        (Machine.handle host) m) := by
  rw [← saturate_eq, ← saturate_eq, ← saturate_eq, evmSetExtCodeCopy]
  refine (alike_saturated dest size m).bind_into finishes fails ?_
  rintro ⟨⟩ _ m₁ rfl -
  rw [if_neg Bool.true_eq_false_eq_False]
  refine (alike_wordCopyGas (saturate size) m₁).bind_into finishes fails fun _ _ m₂ _ _ => ?_
  have access : Alike host (fun _ _ => True) m₂ (Handler.chargeAccountAccess env address)
      (Handler.chargeAccountAccess env address) := .same _ fun _ => trivial
  refine access.bind_into finishes fails fun _ _ m₃ _ _ => ?_
  by_cases zero : size = 0
  · have none : saturate size = 0 := saturate_eq_zero.mpr zero
    rw [if_neg (by omega), if_pos none]
    exact nothing zero m₃
  · have some : saturate size ≠ 0 := fun none => zero (saturate_eq_zero.mp none)
    have cap : (if maxBufferSize < saturate offset then maxBufferSize else saturate offset) =
        min (saturate offset) maxBufferSize := by
      split <;> omega
    rw [if_pos (Nat.pos_of_ne_zero some), if_neg some]
    dsimp only
    rw [cap, run_codeRead, run_codeRead]
    exact reads zero m₃

/-- The copy reads code from an offset that compiled code caps. -/
def ReadsFar (m : Machine) : Prop := m.stack.peek 3 ≠ 0 ∧ maxBufferSize < (m.stack.peek 2).toNat

theorem lt_saturate : maxBufferSize < saturate v ↔ maxBufferSize < v.toNat := by
  have limit : maxBufferSize < 2 ^ 64 - 1 := by decide
  by_cases small : v.toNat < 2 ^ 64
  · rw [saturate_of_lt small, low64_of_lt small]
  · rw [saturate_of_ge (Nat.le_of_not_lt small)]
    omega

theorem extCodeCopy_alike (env : Env) (near : ¬ ReadsFar m) :
    Alike host (fun _ _ => True) m (Handler.extCodeCopy env) (handleExtCodeCopy env) := by
  unfold Alike Handler.extCodeCopy handleExtCodeCopy
  rw [run_bind_operands, run_bind_operands]
  split
  · exact .failed
  · refine extCodeCopy_into env (fun _ _ => .finished) (fun _ _ _ _ => .failed)
      (fun _ _ => .going trivial) fun some w => ?_
    have cap : min (saturate (m.stack.peek 2)) maxBufferSize = saturate (m.stack.peek 2) :=
      Nat.min_eq_left (Nat.le_of_not_lt fun far => near ⟨some, lt_saturate.mp far⟩)
    show SameCourse _ _ (_, afterCodeRead host w _ _ (min (saturate (m.stack.peek 2)) maxBufferSize) _)
    rw [cap]
    exact .going trivial

theorem extCodeCopy_capped (env : Env) (far : ReadsFar m) :
    CappedRead host ((Handler.extCodeCopy env).run (Machine.handle host) m)
      ((handleExtCodeCopy env).run (Machine.handle host) m) := by
  unfold Handler.extCodeCopy handleExtCodeCopy
  rw [run_bind_operands, run_bind_operands]
  split
  · exact .failed
  · refine extCodeCopy_into env (fun _ _ => .finished) (fun _ _ _ _ => .failed)
      (fun none => absurd none far.1) fun _ w => ?_
    have cap : min (saturate (m.stack.peek 2)) maxBufferSize = maxBufferSize :=
      Nat.min_eq_right (Nat.le_of_lt (lt_saturate.mpr far.2))
    show CappedRead host _ (_, afterCodeRead host w _ _ (min (saturate (m.stack.peek 2)) maxBufferSize) _)
    rw [cap]
    exact .read w _ _ _ _ (lt_saturate.mpr far.2)

/-! ## Hashes -/

namespace KeccakCache

def Sound (keccak : Bytes → Word) (cache : KeccakCache) : Prop :=
  ∀ i, (cache.slots i).valid = true → (cache.slots i).result = keccak ((cache.slots i).input.take
    (cache.slots i).inputLen)

variable {keccak : Bytes → Word} {cache : KeccakCache} {data : Bytes}

theorem lookup_sound (sound : cache.Sound keccak) {result : Word}
    (found : cache.lookup data data.length = some result) : result = keccak data := by
  rw [lookup] at found
  split at found
  · cases found
  · obtain ⟨i, first, rfl⟩ := Option.map_eq_some_iff.mp found
    have held := List.find?_some first
    simp only [holds, Bool.and_eq_true, beq_iff_eq, List.take_length] at held
    obtain ⟨⟨valid, len⟩, same⟩ := held
    rw [sound i valid, len, same]

theorem insert_sound (sound : cache.Sound keccak) : (cache.insert data data.length (keccak data)).Sound keccak := by
  rw [insert]
  split
  · exact sound
  · intro i valid
    by_cases here : i = cache.nextSlot
    · simp only [if_pos here, List.take_length, List.take_left]
    · simp only [if_neg here] at valid ⊢
      exact sound i valid

/-- **A hash from the cache is the hash**, and the cache stays sound. -/
theorem hash_sound (sound : cache.Sound keccak) (small : data.length < 2 ^ 32) :
    (cache.hash keccak data data.length).1 = keccak data ∧ (cache.hash keccak data data.length).2.Sound keccak := by
  simp only [hash]
  rw [Nat.mod_eq_of_lt small]
  split
  · next result found => exact ⟨lookup_sound sound found, sound⟩
  · exact ⟨rfl, insert_sound sound⟩

theorem Reached.sound (reached : Reached keccak cache) : cache.Sound keccak := by
  induction reached with
  | start => exact fun i valid => nomatch valid
  | call earlier data small ih =>
    have limit := maxRequired_lt
    exact (hash_sound ih (Nat.lt_of_le_of_lt small limit)).2

end KeccakCache

theorem alike_hash {env : Env} {cache : KeccakCache} (reached : cache.Reached env.keccak) {input : Bytes}
    {length : Nat} (size : input.length = length) (small : length ≤ maxRequiredMemorySize) (m : Machine) :
    Alike host (fun _ c => KeccakCache.Reached env.keccak c) m (push (env.keccak input))
      (do
        push (cache.hash env.keccak input length).1
        pure (cache.hash env.keccak input length).2) := by
  subst size
  have limit := maxRequired_lt
  have hashed := (KeccakCache.hash_sound reached.sound (Nat.lt_of_le_of_lt small limit)).1
  rw [hashed]
  exact .self _ fun _ => .call reached input small

theorem keccak256_alike (env : Env) {cache : KeccakCache} (reached : cache.Reached env.keccak) (m : Machine) :
    Alike host (fun _ c => KeccakCache.Reached env.keccak c) m (Handler.keccak256 env) (handleKeccak256 env cache) := by
  refine .after (Code.operands 2) fun x m' _ => ?_
  refine course_normalized (fun fits => ?_) stops_of_not_fits
  dsimp only
  unfold evmGetKeccak256
  by_cases zero : (x 1).low64 = 0
  · have empty : x 1 = 0 := (low64_eq_zero_iff fits.1).mp zero
    have free : (charge 0).run (Machine.handle host) m' = (.ok (), m') := rfl
    have read : (memoryRead 0 0).run (Machine.handle host) m' = (.ok [], m') := by
      rw [run_memoryRead, List.take_zero]
    rw [Handler.checkMemoryExpandAndChargeGas, if_pos empty, pure_bind, zero,
      show numWords 0 * 6 = 0 from rfl, show Handler.regionOffset (x 0) 0 = 0 from rfl, run_bind_ok free,
      run_bind_ok read, if_neg (Nat.lt_irrefl 0), pure_bind]
    exact alike_hash reached rfl (Nat.zero_le _) m'
  · rw [if_pos (Nat.pos_of_ne_zero zero), bind_assoc]
    refine Alike.bind (alike_region fits m') ?_
    rintro ⟨⟩ _ m₁ rfl ran
    obtain ⟨room, small⟩ := expanded_room zero ran
    rw [if_neg Bool.true_eq_false_eq_False, bind_assoc]
    refine .after _ fun _ m₂ ran' => ?_
    have memory : m₂.memory = m₁.memory := by
      rw [run_charge] at ran'
      split at ran'
      · cases ran'
      · cases ran'
        rfl
    rw [Alike, bind_assoc, run_bind_ok (run_memoryRead host m₂ _ _),
      run_bind_ok (run_memoryRead host m₂ _ _), pure_bind]
    refine alike_hash reached ?_ small m₂
    rw [List.length_take, List.length_drop, memory]
    omega

/-! ## Logs -/

theorem SameCourse.trans {r : Except Halt α × Machine} {r' : Except Halt β × Machine}
    {r'' : Except Halt γ × Machine} (h : SameCourse (fun _ _ => True) r r')
    (h' : SameCourse (fun _ _ => True) r' r'') : SameCourse (fun _ _ => True) r r'' := by
  cases h with
  | going _ =>
    cases h' with
    | going _ => exact .going trivial
  | finished =>
    cases h' with
    | finished => exact .finished
  | failed =>
    cases h' with
    | failed => exact .failed

theorem checkMemory_frame (host : Host) (offset size : Word) (m : Machine) :
    (∃ s, ∀ stack, (Handler.checkMemoryExpandAndChargeGas offset size).run (Machine.handle host)
      { m with stack := stack } = (.error (.fail s), { m with stack := stack })) ∨
    ∃ m' : Machine, ∀ stack, (Handler.checkMemoryExpandAndChargeGas offset size).run (Machine.handle host)
      { m with stack := stack } = (.ok (), { m' with stack := stack }) := by
  have checked (stack : Stack) := @Handler.run_checkMemoryExpandAndChargeGas host offset size { m with stack := stack }
  by_cases fine : demanded offset size ≤ maxRequiredMemorySize ∧ m.growCost (demanded offset size) ≤ m.gas
  · exact .inr ⟨m.grow (demanded offset size), fun stack => (checked stack).trans (if_pos fine)⟩
  · exact .inl ⟨.outOfGas, fun stack => (checked stack).trans (if_neg fine)⟩

def emitLog (env : Env) (offset size : Word) (topics : List Word) : Code Unit := do
  Handler.checkMemoryExpandAndChargeGas offset size
  charge (8 * size.low64)
  let data ← memoryRead (Handler.regionOffset offset size.low64) size.low64
  Code.host (.emitLog env.msg.recipient data topics)

theorem log_topics (env : Env) (offset size : Word) {numTopics : Nat} {m : Machine}
    (enough : numTopics + 2 ≤ m.stack.sp) : SameCourse (fun _ _ => True)
      ((do
        Handler.checkMemoryExpandAndChargeGas offset size
        charge (8 * size.low64)
        let topics ← Code.pop numTopics
        let data ← memoryRead (Handler.regionOffset offset size.low64) size.low64
        Code.host (.emitLog env.msg.recipient data (List.ofFn topics)) : Code Unit).run (Machine.handle host)
          { m with stack := m.stack.drop 2 })
      ((emitLog env offset size (List.ofFn fun k : Fin numTopics => m.stack.peek (2 + k))).run
        (Machine.handle host) { m with stack := m.stack.drop (numTopics + 2) }) := by
  unfold emitLog
  obtain ⟨s, stops⟩ | ⟨m', runs⟩ := checkMemory_frame host offset size m
  · rw [run_bind_error (stops _), run_bind_error (stops _)]
    exact .failed
  · rw [run_bind_ok (runs _), run_bind_ok (runs _)]
    have left := run_charge host { m' with stack := m.stack.drop 2 } (8 * size.low64)
    have right := run_charge host { m' with stack := m.stack.drop (numTopics + 2) } (8 * size.low64)
    by_cases short : m'.gas < 8 * size.low64
    · rw [if_pos short] at left right
      rw [run_bind_error left, run_bind_error right]
      exact .failed
    · rw [if_neg short] at left right
      rw [run_bind_ok left, run_bind_ok right]
      have deep : numTopics ≤ (m.stack.drop 2).sp := show numTopics ≤ m.stack.sp - 2 by omega
      rw [run_bind_pop deep]
      have topics : (fun k : Fin numTopics => (m.stack.drop 2).peek k) =
          fun k : Fin numTopics => m.stack.peek (2 + k) := by
        funext k
        show m.stack.slots (m.stack.sp - 2 - 1 - k) = m.stack.slots (m.stack.sp - 1 - (2 + k))
        congr 1
        omega
      have stack : (m.stack.drop 2).drop numTopics = m.stack.drop (numTopics + 2) := by
        show Stack.mk m.stack.slots (m.stack.sp - 2 - numTopics) = Stack.mk m.stack.slots _
        congr 1
        omega
      dsimp only
      rw [topics, stack]
      exact Alike.same _ fun _ => trivial

theorem emitLog_alike (env : Env) {offset size : Word} (fits : Fits offset size) (topics : List Word)
    (dynamic : env.msg.isStaticMode = false) (m : Machine) :
    Alike host (fun _ _ => True) m (emitLog env offset size topics)
      (evmEmitLogGeneric env (Handler.regionOffset offset size.low64) size.low64 topics) := by
  unfold emitLog evmEmitLogGeneric
  rw [if_neg (by rw [dynamic]; exact Bool.noConfusion)]
  by_cases zero : size.low64 = 0
  · have empty : size = 0 := (low64_eq_zero_iff fits.1).mp zero
    have free : (charge (8 * 0)).run (Machine.handle host) m = (.ok (), m) := rfl
    have read : (memoryRead 0 0).run (Machine.handle host) m = (.ok [], m) := by
      rw [run_memoryRead, List.take_zero]
    rw [Alike, Handler.checkMemoryExpandAndChargeGas, if_pos empty, pure_bind, zero,
      show Handler.regionOffset offset 0 = 0 from rfl, run_bind_ok free, run_bind_ok read, if_neg (Nat.lt_irrefl 0)]
    exact Alike.same _ fun _ => trivial
  · rw [if_pos (Nat.pos_of_ne_zero zero)]
    refine (alike_region fits m).bind ?_
    rintro ⟨⟩ _ m₁ rfl -
    rw [if_neg Bool.true_eq_false_eq_False, Code.when, if_pos (by omega)]
    exact .same _ fun _ => trivial

theorem log_alike (env : Env) (numTopics : Nat) (m : Machine) :
    Alike host (fun _ _ => True) m (Handler.log env numTopics) (handleLogWithTopics env numTopics) := by
  unfold Alike Handler.log handleLogWithTopics
  rw [run_bind_operands]
  have needed := run_need host m (numTopics + 2)
  by_cases short : m.stack.sp < numTopics + 2
  · rw [if_pos short] at needed ⊢
    split
    · exact .failed
    · rw [run_bind_error needed]
      exact .failed
  · rw [if_neg short] at needed ⊢
    simp only [Fin.val_zero, Fin.val_one, Fin.val_cast, Fin.val_natAdd]
    by_cases static : env.msg.isStaticMode = true
    · rw [if_pos static]
      refine course_normalized (fun _ => ?_) fun _ => ⟨_, _, rfl⟩
      rw [evmEmitLogGeneric, if_pos static]
      exact .failed
    · rw [if_neg static, run_bind_ok needed, run_bind_pop (by omega)]
      dsimp only [Fin.val_zero, Fin.val_one]
      refine course_normalized (fun fits => ?_) stops_of_not_fits
      exact (log_topics env _ _ (Nat.le_of_not_lt short)).trans
        (emitLog_alike env fits _ (Bool.eq_false_iff.mpr static) _)

/-! ## State -/

/-- Compiled code has taken the operands where the interpreter first looks whether it may write. -/
theorem alike_writing {n : Nat} {f : (Fin n → Word) → Code Unit} {c : γ} {go : Unit → γ → Prop}
    (keeps : ∀ a, go a c) (env : Env) (m : Machine) : Alike host go m
      (if env.msg.isStaticMode then fail .staticModeViolation else Code.operands n >>= f)
      (do
        let x ← Code.operands n
        (if env.msg.isStaticMode then fail .staticModeViolation else f x : Code Unit)
        pure c) := by
  by_cases static : env.msg.isStaticMode = true
  · simp only [if_pos static]
    rw [Alike, run_bind_operands]
    split
    · exact .failed
    · exact .failed
  · simp only [if_neg static]
    exact .after (Code.operands n) fun x m' _ => .self (f x) keeps

theorem run_requireSstoreGas (host : Host) (env : Env) (m : Machine) :
    (Handler.requireSstoreGas env).run (Machine.handle host) m =
      if .istanbul ≤ env.rev ∧ m.gas ≤ Handler.sstoreRequiredIstanbul
        then (.error (.fail .outOfGas), m) else (.ok (), m) := by
  unfold Handler.requireSstoreGas
  by_cases late : .istanbul ≤ env.rev
  · rw [if_pos late, run_bind_ok (run_gas host m), Code.when]
    by_cases low : m.gas ≤ Handler.sstoreRequiredIstanbul
    · rw [if_pos low, if_pos ⟨late, low⟩]
      rfl
    · rw [if_neg low, if_neg fun h => low h.2]
      rfl
  · rw [if_neg late, if_neg fun h => late h.1]
    rfl

theorem sstore_alike (env : Env) {c : γ} {go : Unit → γ → Prop} (keeps : ∀ a, go a c) (m : Machine) :
    Alike host go m (Handler.sstore env)
      (do
        let x ← Code.operands 2
        evmSetSStore env (x 0) (x 1)
        pure c) := by
  have required := run_requireSstoreGas host env m
  unfold Alike Handler.sstore evmSetSStore
  rw [run_bind_operands]
  by_cases short : m.stack.sp < 2
  · rw [if_pos short]
    split
    · exact .failed
    · split at required
      · rw [run_bind_error required]
        exact .failed
      · rw [run_bind_ok required, run_bind_operands, if_pos short]
        exact .failed
  · rw [if_neg short]
    by_cases static : env.msg.isStaticMode = true
    · rw [if_pos static, if_pos static]
      exact .failed
    · rw [if_neg static, if_neg static, bind_assoc]
      have required' := run_requireSstoreGas host env { m with stack := m.stack.drop 2 }
      by_cases low : .istanbul ≤ env.rev ∧ m.gas ≤ Handler.sstoreRequiredIstanbul
      · rw [if_pos low] at required required'
        rw [run_bind_error required, run_bind_error required']
        exact .failed
      · rw [if_neg low] at required required'
        rw [run_bind_ok required, run_bind_operands, if_neg short, run_bind_ok required']
        exact Alike.self _ keeps

/-! ## All opcodes -/

/-- **The same course but for code that is read from far away.** -/
theorem helper_sameCourse (env : Env) (op : HelperOp) {cache : KeccakCache}
    (reached : cache.Reached env.keccak) {m : Machine} (vector : m.returnData.length < 2 ^ 63)
    (near : op = .extCodeCopy → ¬ ReadsFar m) :
    Alike host (fun _ c => KeccakCache.Reached env.keccak c) m (op.interpreted env) (op.compiled env cache) := by
  have keeps : ∀ _ : Unit, KeccakCache.Reached env.keccak cache := fun _ => reached
  cases op with
  | callDataCopy => exact (callDataCopy_alike env m).keeping keeps
  | codeCopy => exact (codeCopy_alike env m).keeping keeps
  | extCodeCopy => exact (extCodeCopy_alike env (near rfl)).keeping keeps
  | returnDataCopy => exact (returnDataCopy_alike vector).keeping keeps
  | keccak256 => exact keccak256_alike env reached m
  | log numTopics => exact (log_alike env numTopics m).keeping keeps
  | sload =>
    refine .after (Code.operands 1) fun x m' _ => ?_
    rw [evmGetSLoad, bind_assoc]
    have loaded : Alike host _ m' (do
      Handler.chargeSlotAccess env (x 0)
      let value ← Code.host (.getStorage env.msg.recipient (x 0))
      push value) _ := .self _ keeps
    rwa [bind_assoc] at loaded
  | sstore => exact sstore_alike env keeps m
  | tload => exact .after (Code.operands 1) fun x m' _ => .self (evmGetTLoad env (x 0) >>= push) keeps
  | tstore | selfDestruct => exact alike_writing keeps env m

def Fails (r : Except Halt α × Machine) : Prop := ∃ s m, r = (.error (.fail s), m)

theorem SameCourse.fails_iff {go : α → β → Prop} {r : Except Halt α × Machine} {r' : Except Halt β × Machine}
    (h : SameCourse go r r') : Fails r ↔ Fails r' := by
  cases h with
  | going _ | finished => exact ⟨fun ⟨_, _, h⟩ => (nomatch h), fun ⟨_, _, h⟩ => (nomatch h)⟩
  | failed => exact ⟨fun _ => ⟨_, _, rfl⟩, fun _ => ⟨_, _, rfl⟩⟩

namespace CappedRead

theorem fails_iff {r : Except Halt Unit × Machine} {r' : Except Halt β × Machine}
    (h : CappedRead host r r') : Fails r ↔ Fails r' := by
  cases h with
  | read | finished => exact ⟨fun ⟨_, _, h⟩ => (nomatch h), fun ⟨_, _, h⟩ => (nomatch h)⟩
  | failed => exact ⟨fun _ => ⟨_, _, rfl⟩, fun _ => ⟨_, _, rfl⟩⟩

theorem keeping {q : Code Unit} {m : Machine} {r : Except Halt Unit × Machine}
    (h : CappedRead host r (q.run (Machine.handle host) m)) (c : γ) :
    CappedRead host r ((q >>= fun _ => pure c).run (Machine.handle host) m) := by
  rw [run_bind]
  revert h
  generalize q.run (Machine.handle host) m = r'
  intro h
  cases h with
  | read w address destOffset offset size capped => exact .read w address destOffset offset size capped
  | finished => exact .finished
  | failed => exact .failed

end CappedRead

/-- The host answers a read from far away as one from the largest offset that compiled code asks for: there is
no code at either. -/
def EndsBeforeCap (host : Host) : Prop :=
  ∀ t a offset size, maxBufferSize < offset →
    host t (.copyCode a offset size) = host t (.copyCode a maxBufferSize size)

theorem SameCourse.sameAfter {go : α → β → Prop} {a : α} {b : β} {m w : Machine}
    (h : SameCourse go (.ok a, m) (.ok b, w)) : SameAfter m w := by
  cases h
  rfl

theorem CappedRead.sameAfter (ends : EndsBeforeCap host) {b : β} {m w : Machine}
    (h : CappedRead host (.ok (), m) (.ok b, w)) : SameAfter m w := by
  cases h with
  | read v address destOffset offset size capped =>
    simp only [SameAfter, afterCodeRead]
    rw [ends v.trace address offset size capped]

/-- **The helpers of compiled code against the interpreter's handlers**, for every opcode, host and machine, and
a cache that earlier calls have left. Either both fail or neither does. They make the same host calls and leave
the same machine, the cap on the offset of code apart: where it applies the last call of the two differs in its
offset, and the machines still agree if the host has no code at either. -/
theorem helpers_alike (host : Host) (env : Env) (op : HelperOp) {cache : KeccakCache}
    (reached : cache.Reached env.keccak) {m : Machine} (vector : m.returnData.length < 2 ^ 63) :
    (Fails ((op.interpreted env).run (Machine.handle host) m) ↔
      Fails ((op.compiled env cache).run (Machine.handle host) m)) ∧ ((op = .extCodeCopy → ¬ ReadsFar m) →
      SameCourse (fun _ c => KeccakCache.Reached env.keccak c) ((op.interpreted env).run (Machine.handle host) m)
        ((op.compiled env cache).run (Machine.handle host) m)) ∧ (op = .extCodeCopy → ReadsFar m →
      CappedRead host ((op.interpreted env).run (Machine.handle host) m)
        ((op.compiled env cache).run (Machine.handle host) m)) ∧
    (EndsBeforeCap host → ∀ b m' w', (op.interpreted env).run (Machine.handle host) m = (.ok (), m') →
      (op.compiled env cache).run (Machine.handle host) m = (.ok b, w') → SameAfter m' w') := by
  have far (isCopy : op = .extCodeCopy) (reads : ReadsFar m) :
      CappedRead host ((op.interpreted env).run (Machine.handle host) m)
        ((op.compiled env cache).run (Machine.handle host) m) := by
    subst isCopy
    exact (extCodeCopy_capped env reads).keeping cache
  by_cases capped : op = .extCodeCopy ∧ ReadsFar m
  · obtain ⟨isCopy, reads⟩ := capped
    refine ⟨(far isCopy reads).fails_iff, fun near => absurd reads (near isCopy), far, ?_⟩
    intro ends b m' w' left right
    have course := far isCopy reads
    rw [left, right] at course
    exact course.sameAfter ends
  · have course : SameCourse (fun _ c => KeccakCache.Reached env.keccak c)
        ((op.interpreted env).run (Machine.handle host) m)
        ((op.compiled env cache).run (Machine.handle host) m) :=
      helper_sameCourse env op reached vector fun isCopy reads => capped ⟨isCopy, reads⟩
    refine ⟨course.fails_iff, fun _ => course, far, ?_⟩
    intro _ b m' w' left right
    rw [left, right] at course
    exact course.sameAfter

def hashing : Env :=
  { plainEnv .cancun 0 with keccak := fun data => data.foldl (fun h b => 256 * h + BitVec.ofNat 256 b.toNat) 1 }

/-- Operands of a `KECCAK256` of two bytes at the offset 1. -/
def hashed : Machine :=
  { Machine.entry 100000 with stack := ⟨fun i => if i = 0 then 2 else 1, 2⟩, memory := [9, 1, 2] ++ List.replicate 29 0 }

/-- The cache after two calls, of which the second has hashed the same bytes. -/
def usedCache : KeccakCache :=
  (((KeccakCache.fresh.hash hashing.keccak [3] 1).2).hash hashing.keccak [1, 2] 2).2

theorem helpers_alike_cached : usedCache.lookup [1, 2] 2 = some 0x10102 ∧
    SameCourse (fun _ c => KeccakCache.Reached hashing.keccak c)
      ((HelperOp.keccak256.interpreted hashing).run (Machine.handle .idle) hashed)
      ((HelperOp.keccak256.compiled hashing usedCache).run (Machine.handle .idle) hashed) := by
  have reached : usedCache.Reached hashing.keccak := .call (.call .start [3] (by decide)) [1, 2] (by decide)
  refine ⟨by decide +kernel, (helpers_alike .idle hashing .keccak256 reached (m := hashed) (by decide)).2.1 ?_⟩
  rintro ⟨⟩

/-- Operands of an `EXTCODECOPY` that reads one byte from the offset `2 ^ 32`. -/
def readingFar : Machine :=
  { Machine.entry 100000 with stack := ⟨fun i => if i = 1 then 2 ^ 32 else if i = 0 then 1 else 0, 4⟩ }

/-- **Host calls that differ.** -/
theorem extCodeCopy_capped_differs : ¬ SameCourse (fun _ _ => True)
      ((HelperOp.extCodeCopy.interpreted (plainEnv .cancun 0)).run (Machine.handle .idle) readingFar)
      ((HelperOp.extCodeCopy.compiled (plainEnv .cancun 0) {}).run (Machine.handle .idle) readingFar) := by
  intro course
  have requests : (((HelperOp.extCodeCopy.interpreted (plainEnv .cancun 0)).run (Machine.handle .idle)
      readingFar).2.trace.map HostEvent.req) ≠
      (((HelperOp.extCodeCopy.compiled (plainEnv .cancun 0) {}).run (Machine.handle .idle)
        readingFar).2.trace.map HostEvent.req) := by decide +kernel
  have ends : ¬ Fails ((HelperOp.extCodeCopy.interpreted (plainEnv .cancun 0)).run (Machine.handle .idle)
      readingFar) := by
    rintro ⟨s, m, eq⟩
    have ok : (((HelperOp.extCodeCopy.interpreted (plainEnv .cancun 0)).run (Machine.handle .idle)
      readingFar).1.isOk) = true := by decide +kernel
    rw [eq] at ok
    cases ok
  revert course requests ends
  generalize (HelperOp.extCodeCopy.interpreted (plainEnv .cancun 0)).run (Machine.handle .idle) readingFar = r
  generalize (HelperOp.extCodeCopy.compiled (plainEnv .cancun 0) {}).run (Machine.handle .idle) readingFar = r'
  intro course requests ends
  cases course with
  | going _ | finished => exact requests rfl
  | failed => exact ends ⟨_, _, rfl⟩

end Dtvm.Jit
