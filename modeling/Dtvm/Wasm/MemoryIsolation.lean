import Dtvm.Wasm.MemoryAllocator

/-!
# Isolation of the memories in a bucket

What is accessible of a slot is always a part from its start, so the accessible bytes of a bucket are told by
one length for each slot (`Shows`). Only the first slot of a bucket is recorded when it is handed out; the
others are when their memory grows. A slot that is not recorded stays open. So after an instance has been
made active its bucket shows its memory and nothing else exactly if every other slot that has been handed out
is recorded (`exact_iff_recorded`).
-/

namespace Dtvm.Wasm

open Effect

/-! ## Lengths of slots -/

/-- The accessible bytes of a bucket with slots of one size. -/
def Shows (item : Nat) (accessible : Nat → Bool) (lengths : Nat → Nat) : Prop :=
  ∀ x, accessible x = true ↔ x % item < lengths (x / item)

theorem Shows.congr {item : Nat} {accessible : Nat → Bool} {lengths lengths' : Nat → Nat}
    (told : Shows item accessible lengths) (same : ∀ k, lengths k = lengths' k) : Shows item accessible lengths' :=
  (funext same : lengths = lengths') ▸ told

section Slots

variable {item : Nat} (pos : 0 < item) {k n : Nat} (small : n ≤ item)

include pos small

theorem in_slot_iff (x : Nat) : k * item ≤ x ∧ x < k * item + n ↔ x / item = k ∧ x % item < n := by
  have split := Nat.div_add_mod x item
  have rest := Nat.mod_lt x pos
  constructor
  · rintro ⟨above, below⟩
    have slot : x / item = k := by
      apply Nat.div_eq_of_lt_le above
      rw [Nat.succ_mul]
      omega
    rw [slot, Nat.mul_comm] at split
    exact ⟨slot, by omega⟩
  · rintro ⟨rfl, inside⟩
    rw [Nat.mul_comm] at split
    omega

variable {accessible : Nat → Bool} {lengths : Nat → Nat} (told : Shows item accessible lengths)

include told

theorem Shows.mprotect (covers : lengths k ≤ n) (on : Bool) : Shows item (mprotect (k * item) n on accessible)
      (Function.update lengths k (if on then n else 0)) := by
  intro x
  rw [Wasm.mprotect]
  by_cases inside : k * item ≤ x ∧ x < k * item + n
  · obtain ⟨rfl, lt⟩ := (in_slot_iff pos small x).mp inside
    rw [if_pos inside, Function.update_self]
    cases on with
    | false => simp
    | true => simp [lt]
  · rw [if_neg inside, told x]
    by_cases slot : x / item = k
    · have out : ¬ x % item < n := fun lt => inside ((in_slot_iff pos small x).mpr ⟨slot, lt⟩)
      rw [slot, Function.update_self]
      cases on with
      | false | true => simp; omega
    · rw [Function.update_of_ne slot]

theorem Shows.exact_iff (here : lengths k = n) :
    (∀ x, accessible x = true ↔ k * item ≤ x ∧ x < k * item + n) ↔ ∀ j, j ≠ k → lengths j = 0 := by
  constructor
  · intro exact j other
    by_contra some
    have first : accessible (j * item) = true := by
      rw [told, Nat.mul_mod_left, Nat.mul_div_cancel _ pos]
      exact Nat.pos_of_ne_zero some
    have slot := ((in_slot_iff pos small _).mp ((exact _).mp first)).1
    rw [Nat.mul_div_cancel _ pos] at slot
    exact other slot
  · intro closed x
    rw [told x, in_slot_iff pos small]
    constructor
    · intro lt
      have slot : x / item = k := by
        by_contra other
        rw [closed _ other] at lt
        exact Nat.not_lt_zero _ lt
      exact ⟨slot, by rwa [slot, here] at lt⟩
    · rintro ⟨slot, lt⟩
      rwa [slot, here]

end Slots

theorem shows_protectItems {cfg : AllocatorConfig} {bucket : MmapBucketInstance} {lengths : Nat → Nat}
    (told : Shows cfg.mmapMemoryBucketGrowMaxSize bucket.accessible lengths)
    (recorded : ∀ k, bucket.itemsUsedSizes k ≠ 0 → lengths k ≤ bucket.itemsUsedSizes k ∧
      bucket.itemsUsedSizes k ≤ cfg.mmapMemoryBucketGrowMaxSize ∧ k < duplicates) :
    Shows cfg.mmapMemoryBucketGrowMaxSize (WasmMemoryAllocator.protectItems cfg bucket)
      (fun k => if bucket.itemsUsedSizes k = 0 then lengths k else 0) := by
  -- after some of the slots, those among them are closed
  have after (slots : List Nat) : ∀ {accessible : Nat → Bool} {lengths : Nat → Nat},
      Shows cfg.mmapMemoryBucketGrowMaxSize accessible lengths →
      (∀ k, bucket.itemsUsedSizes k ≠ 0 → lengths k ≤ bucket.itemsUsedSizes k) →
      Shows cfg.mmapMemoryBucketGrowMaxSize (slots.foldl (fun accessible i =>
          if bucket.itemsUsedSizes i = 0 then accessible
          else mprotect (i * cfg.mmapMemoryBucketGrowMaxSize) (bucket.itemsUsedSizes i) false accessible)
          accessible)
        (fun k => if k ∈ slots ∧ bucket.itemsUsedSizes k ≠ 0 then 0 else lengths k) := by
    induction slots with
    | nil =>
      intro accessible lengths told _
      simpa using told
    | cons i slots ih =>
      intro accessible lengths told covers
      rw [List.foldl_cons]
      by_cases none : bucket.itemsUsedSizes i = 0
      · rw [if_pos none]
        refine (ih told covers).congr fun k => ?_
        by_cases here : k = i
        · subst here
          simp [none]
        · simp [here]
      · rw [if_neg none]
        have closed := told.mprotect cfg.pos (recorded i none).2.1 (covers i none) false
        refine (ih closed ?_).congr fun k => ?_
        · intro k some
          by_cases here : k = i
          · subst here
            simp
          · rw [Function.update_of_ne here]
            exact covers k some
        · by_cases here : k = i
          · subst here
            simp [none]
          · simp [here]
  refine (after (List.range duplicates) told fun k some => (recorded k some).1).congr fun k => ?_
  by_cases none : bucket.itemsUsedSizes k = 0
  · simp [none]
  · simp [none, (recorded k none).2.2]

/-! ## The layout of a bucket -/

abbrev AllocatorConfig.item (cfg : AllocatorConfig) : Nat := cfg.mmapMemoryBucketGrowMaxSize

abbrev Memories := Nat → Option WasmMemoryData

/-- A memory is that of the instance which has been given one, or it was there before. -/
theorem update_eq_some {memory : Memories} {i i' : Nat} {given : Option WasmMemoryData} {data : WasmMemoryData}
    (at_ : Function.update memory i given i' = some data) :
    i' = i ∧ given = some data ∨ i' ≠ i ∧ memory i' = some data := by
  by_cases self : i' = i
  · subst self
    rw [Function.update_self] at at_
    exact .inl ⟨rfl, at_⟩
  · rw [Function.update_of_ne self] at at_
    exact .inr ⟨self, at_⟩

/-- A bucket of which some slots have been handed out and some of these freed, with the lengths that it
shows. -/
structure Layout (cfg : AllocatorConfig) (memory : Memories) (b : Nat) (bucket : MmapBucketInstance)
    (handed : Nat) (lengths : Nat → Nat) (freed : Finset Nat) : Prop where
  next : bucket.nextOffset = handed * cfg.item
  most : handed ≤ duplicates
  told : Shows cfg.item bucket.accessible lengths
  /-- What has not been handed out is closed and not recorded. -/
  beyond : ∀ k, handed ≤ k → lengths k = 0 ∧ bucket.itemsUsedSizes k = 0
  /-- What is recorded covers what is open. -/
  recorded : ∀ k, bucket.itemsUsedSizes k ≠ 0 →
    lengths k ≤ bucket.itemsUsedSizes k ∧ bucket.itemsUsedSizes k ≤ cfg.item
  /-- What is not recorded is open. -/
  unrecorded : ∀ k, k < handed → bucket.itemsUsedSizes k = 0 → 0 < lengths k
  live : ∀ i o n, memory i = some (.bucketMmap b o n) → ∃ k, k < handed ∧ o = k * cfg.item ∧ 0 < n ∧
    n ≤ cfg.item ∧ lengths k ≤ n ∧ (bucket.itemsUsedSizes k ≠ 0 → bucket.itemsUsedSizes k = n) ∧ k ∉ freed
  apart : ∀ i j o n n', memory i = some (.bucketMmap b o n) → memory j = some (.bucketMmap b o n') → i = j
  freedCount : bucket.freedCount = freed.card
  freed_lt : ∀ k ∈ freed, k < handed

/-- A slot of a bucket is opened and the recorded ones closed. -/
def activated (cfg : AllocatorConfig) (k n : Nat) (bucket : MmapBucketInstance) : MmapBucketInstance :=
  { bucket with
    accessible := mprotect (k * cfg.item) n true (WasmMemoryAllocator.protectItems cfg bucket) }

def activatedLengths (k n : Nat) (bucket : MmapBucketInstance) (lengths : Nat → Nat) : Nat → Nat :=
  Function.update (fun j => if bucket.itemsUsedSizes j = 0 then lengths j else 0) k n

theorem shows_activated {cfg : AllocatorConfig} {bucket : MmapBucketInstance} {lengths : Nat → Nat} {k n : Nat}
    (told : Shows cfg.item bucket.accessible lengths)
    (recorded : ∀ j, bucket.itemsUsedSizes j ≠ 0 → lengths j ≤ bucket.itemsUsedSizes j ∧
      bucket.itemsUsedSizes j ≤ cfg.item ∧ j < duplicates) (small : n ≤ cfg.item) (covers : lengths k ≤ n) :
    Shows cfg.item (activated cfg k n bucket).accessible (activatedLengths k n bucket lengths) := by
  have closed := shows_protectItems told recorded
  have covers' : (if bucket.itemsUsedSizes k = 0 then lengths k else 0) ≤ n := by
    split
    · exact covers
    · exact Nat.zero_le _
  exact closed.mprotect cfg.pos small covers' true

theorem activatedLengths_self (k n : Nat) (bucket : MmapBucketInstance) (lengths : Nat → Nat) :
    activatedLengths k n bucket lengths k = n := Function.update_self _ _ _

theorem activatedLengths_of_ne {k n j : Nat} (other : j ≠ k) (bucket : MmapBucketInstance) (lengths : Nat → Nat) :
    activatedLengths k n bucket lengths j = if bucket.itemsUsedSizes j = 0 then lengths j else 0 :=
  Function.update_of_ne other _ _

namespace Layout

variable {cfg : AllocatorConfig} {memory memory' : Memories} {b : Nat} {bucket : MmapBucketInstance}
  {handed : Nat} {lengths : Nat → Nat} {freed : Finset Nat}

section

variable (h : Layout cfg memory b bucket handed lengths freed)

include h

theorem recorded_lt (k : Nat) (some : bucket.itemsUsedSizes k ≠ 0) : lengths k ≤ bucket.itemsUsedSizes k ∧
      bucket.itemsUsedSizes k ≤ cfg.item ∧ k < duplicates := by
  obtain ⟨covers, small⟩ := h.recorded k some
  refine ⟨covers, small, ?_⟩
  by_contra far
  exact some (h.beyond k (Nat.le_trans h.most (Nat.le_of_not_lt far))).2

theorem congr (same : ∀ i o n, memory' i = some (.bucketMmap b o n) → memory i = some (.bucketMmap b o n)) :
    Layout cfg memory' b bucket handed lengths freed :=
  { h with
    live := fun i o n at_ => h.live i o n (same i o n at_)
    apart := fun i j o n n' at_ at' => h.apart i j o n n' (same i o n at_) (same j o n' at') }

theorem activate {i k n : Nat} (inside : k < handed) (at_ : memory i = some (.bucketMmap b (k * cfg.item) n)) :
    Layout cfg memory b (activated cfg k n bucket) handed (activatedLengths k n bucket lengths) freed := by
  obtain ⟨k', -, slot, some, small, covers, same, kept⟩ := h.live i _ n at_
  obtain rfl : k = k' := Nat.eq_of_mul_eq_mul_right cfg.pos slot
  have told := shows_activated h.told h.recorded_lt small covers
  refine { h with told := told, beyond := ?_, recorded := ?_, unrecorded := ?_, live := ?_ }
  · intro j far
    have other : j ≠ k := by omega
    obtain ⟨closed, unused⟩ := h.beyond j far
    rw [activatedLengths_of_ne other, closed]
    exact ⟨by split <;> rfl, unused⟩
  · intro j (used : bucket.itemsUsedSizes j ≠ 0)
    refine ⟨?_, (h.recorded j used).2⟩
    by_cases here : j = k
    · subst here
      rw [activatedLengths_self]
      exact (same used).ge
    · rw [activatedLengths_of_ne here, if_neg used]
      exact Nat.zero_le _
  · intro j lt (unused : bucket.itemsUsedSizes j = 0)
    by_cases here : j = k
    · subst here
      rw [activatedLengths_self]
      exact some
    · rw [activatedLengths_of_ne here, if_pos unused]
      exact h.unrecorded j lt unused
  · intro i' o n' at'
    obtain ⟨j, lt, rfl, some', small', covers', same', kept'⟩ := h.live i' o n' at'
    refine ⟨j, lt, rfl, some', small', ?_, same', kept'⟩
    by_cases here : j = k
    · subst here
      obtain rfl := h.apart i i' _ _ _ at_ at'
      rw [at_] at at'
      cases at'
      rw [activatedLengths_self]
    · rw [activatedLengths_of_ne here]
      split
      · exact covers'
      · exact Nat.zero_le _

theorem alloc {i n : Nat} (left : handed < duplicates) (fresh : memory i = none) (some : 0 < n) (small : n ≤ cfg.item) :
    Layout cfg (Function.update memory i (.some (.bucketMmap b (handed * cfg.item) n))) b
      (activated cfg handed n { bucket with nextOffset := bucket.nextOffset + cfg.item }) (handed + 1)
      (activatedLengths handed n bucket lengths) freed := by
  obtain ⟨closed, unused⟩ := h.beyond handed (Nat.le_refl _)
  have told : Shows cfg.item
      (activated cfg handed n { bucket with nextOffset := bucket.nextOffset + cfg.item }).accessible
      (activatedLengths handed n bucket lengths) :=
    shows_activated (n := n) h.told h.recorded_lt small (closed.le.trans (Nat.zero_le n))
  have elsewhere {i' o n'} (at_ : memory i' = .some (.bucketMmap b o n')) : o ≠ handed * cfg.item := by
    obtain ⟨j, lt, rfl, -⟩ := h.live i' o n' at_
    exact fun eq => absurd (Nat.eq_of_mul_eq_mul_right cfg.pos eq) (by omega)
  refine { h with next := ?_, most := left, told := told, beyond := ?_, recorded := ?_, unrecorded := ?_,
                  live := ?_, apart := ?_, freed_lt := ?_ }
  · show bucket.nextOffset + cfg.item = _
    rw [h.next, Nat.succ_mul]
  · intro j far
    obtain ⟨closed, unused⟩ := h.beyond j (by omega)
    rw [activatedLengths_of_ne (by omega), closed]
    exact ⟨by split <;> rfl, unused⟩
  · intro j (used : bucket.itemsUsedSizes j ≠ 0)
    have other : j ≠ handed := by
      rintro rfl
      exact used unused
    refine ⟨?_, (h.recorded j used).2⟩
    rw [activatedLengths_of_ne other, if_neg used]
    exact Nat.zero_le _
  · intro j lt (unused : bucket.itemsUsedSizes j = 0)
    by_cases here : j = handed
    · subst here
      rw [activatedLengths_self]
      exact some
    · rw [activatedLengths_of_ne here, if_pos unused]
      exact h.unrecorded j (by omega) unused
  · intro i' o n' at_
    obtain ⟨rfl, new⟩ | ⟨-, old⟩ := update_eq_some at_
    · cases new
      refine ⟨handed, Nat.lt_succ_self _, rfl, some, small, ?_, fun used => absurd unused used, ?_⟩
      · rw [activatedLengths_self]
      · exact fun mem => absurd (h.freed_lt _ mem) (Nat.lt_irrefl _)
    · obtain ⟨j, lt, rfl, some', small', covers', same', kept'⟩ := h.live i' o n' old
      refine ⟨j, by omega, rfl, some', small', ?_, same', kept'⟩
      rw [activatedLengths_of_ne (by omega)]
      split
      · exact covers'
      · exact Nat.zero_le _
  · intro i' j' o n' n'' at_ at'
    obtain ⟨rfl, new⟩ | ⟨-, old⟩ := update_eq_some at_ <;> obtain ⟨rfl, new'⟩ | ⟨-, old'⟩ := update_eq_some at'
    · rfl
    · cases new
      exact absurd rfl (elsewhere old')
    · cases new'
      exact absurd rfl (elsewhere old)
    · exact h.apart i' j' o n' n'' old old'
  · exact fun k mem => Nat.lt_succ_of_lt (h.freed_lt k mem)

theorem enlarge {i k n n' : Nat} (inside : k < handed)
    (at_ : memory i = some (.bucketMmap b (k * cfg.item) n)) (more : n ≤ n') (small : n' ≤ cfg.item) :
    Layout cfg (Function.update memory i (some (.bucketMmap b (k * cfg.item) n'))) b
      { bucket with
        itemsUsedSizes := Function.update bucket.itemsUsedSizes k n'
        accessible := mprotect (k * cfg.item) n' true bucket.accessible }
      handed (Function.update lengths k n') freed := by
  obtain ⟨k', -, slot, some, -, covers, same, kept⟩ := h.live i _ n at_
  obtain rfl : k = k' := Nat.eq_of_mul_eq_mul_right cfg.pos slot
  have told := h.told.mprotect cfg.pos small (covers.trans more) true
  -- what the memories of the instances were
  have before {i' o m} (at' : Function.update memory i (.some (.bucketMmap b (k * cfg.item) n')) i' =
      .some (.bucketMmap b o m)) : ∃ m', memory i' = .some (.bucketMmap b o m') ∧
        (i' = i ∧ o = k * cfg.item ∧ m = n' ∨ i' ≠ i ∧ m' = m) := by
    obtain ⟨rfl, new⟩ | ⟨self, old⟩ := update_eq_some at'
    · cases new
      exact ⟨n, at_, .inl ⟨rfl, rfl, rfl⟩⟩
    · exact ⟨m, old, .inr ⟨self, rfl⟩⟩
  refine { h with told := told, beyond := ?_, recorded := ?_, unrecorded := ?_, live := ?_, apart := ?_ }
  · intro j far
    have other : j ≠ k := by omega
    dsimp only
    rw [Function.update_of_ne other, Function.update_of_ne other]
    exact h.beyond j far
  · intro j used
    dsimp only at used ⊢
    by_cases here : j = k
    · subst here
      rw [Function.update_self, Function.update_self]
      exact ⟨Nat.le_refl _, small⟩
    · rw [Function.update_of_ne here] at used
      rw [Function.update_of_ne here, Function.update_of_ne here]
      exact h.recorded j used
  · intro j lt unused
    dsimp only at unused
    by_cases here : j = k
    · subst here
      rw [Function.update_self]
      omega
    · rw [Function.update_of_ne here] at unused ⊢
      exact h.unrecorded j lt unused
  · intro i' o m at'
    dsimp only
    obtain ⟨m', old, ⟨rfl, rfl, rfl⟩ | ⟨other, rfl⟩⟩ := before at'
    · refine ⟨k, inside, rfl, by omega, small, ?_, fun _ => ?_, kept⟩
      · rw [Function.update_self]
      · rw [Function.update_self]
    · obtain ⟨j, lt, rfl, some', small', covers', same', kept'⟩ := h.live i' o m' old
      have apart : j ≠ k := by
        rintro rfl
        exact other (h.apart i' i _ _ _ old at_)
      refine ⟨j, lt, rfl, some', small', ?_, ?_, kept'⟩
      · rw [Function.update_of_ne apart]
        exact covers'
      · rw [Function.update_of_ne apart]
        exact same'
  · intro i' j' o m m' at' at''
    obtain ⟨_, old, -⟩ := before at'
    obtain ⟨_, old', -⟩ := before at''
    exact h.apart i' j' o _ _ old old'

theorem free {i k n : Nat} (inside : k < handed) (at_ : memory i = some (.bucketMmap b (k * cfg.item) n)) :
    Layout cfg (Function.update memory i none) b { bucket with freedCount := bucket.freedCount + 1 } handed
      lengths (insert k freed) := by
  obtain ⟨k', -, slot, -, -, -, -, kept⟩ := h.live i _ n at_
  obtain rfl : k = k' := Nat.eq_of_mul_eq_mul_right cfg.pos slot
  have before {i' o m} (at' : Function.update memory i none i' = .some (.bucketMmap b o m)) :
      i' ≠ i ∧ memory i' = .some (.bucketMmap b o m) := (update_eq_some at').resolve_left nofun
  refine { h with live := ?_, apart := ?_, freedCount := ?_, freed_lt := ?_ }
  · intro i' o m at'
    obtain ⟨other, old⟩ := before at'
    obtain ⟨j, lt, rfl, some', small', covers', same', kept'⟩ := h.live i' o m old
    refine ⟨j, lt, rfl, some', small', covers', same', ?_⟩
    rw [Finset.mem_insert, not_or]
    refine ⟨?_, kept'⟩
    rintro rfl
    exact other (h.apart i' i _ _ _ old at_)
  · intro i' j' o m m' at' at''
    exact h.apart i' j' o m m' (before at').2 (before at'').2
  · rw [Finset.card_insert_of_notMem kept]
    exact congrArg (· + 1) h.freedCount
  · intro j mem
    rcases Finset.mem_insert.mp mem with rfl | mem
    · exact inside
    · exact h.freed_lt j mem

theorem freed_le : freed.card ≤ handed := by
  have sub : freed ⊆ Finset.range handed := fun k mem => Finset.mem_range.mpr (h.freed_lt k mem)
  have le := Finset.card_le_card sub
  rwa [Finset.card_range] at le

end

theorem first {i n : Nat} (fresh : ∀ i o n, memory i ≠ some (.bucketMmap b o n)) (some : 0 < n) (small : n ≤ cfg.item) :
    Layout cfg (Function.update memory i (.some (.bucketMmap b (0 * cfg.item) n))) b
      (activated cfg 0 n ⟨fun i => if i = 0 then n else 0, cfg.item, 0, fun _ => false⟩) 1
      (Function.update (fun _ => 0) 0 n) ∅ := by
  have closed : Shows cfg.item (fun _ => false) (fun _ => 0) := fun x => by simp
  let bucket : MmapBucketInstance := ⟨fun i => if i = 0 then n else 0, cfg.item, 0, fun _ => false⟩
  have recorded (j : Nat) (used : bucket.itemsUsedSizes j ≠ 0) :
      0 ≤ bucket.itemsUsedSizes j ∧ bucket.itemsUsedSizes j ≤ cfg.item ∧ j < duplicates := by
    have here : j = 0 := by
      by_contra other
      exact used (if_neg other)
    subst here
    exact ⟨Nat.zero_le _, small, by decide⟩
  have told : Shows cfg.item (activated cfg 0 n bucket).accessible
      (activatedLengths 0 n bucket fun _ => 0) := shows_activated closed recorded small (Nat.zero_le n)
  have only {i' o n'} (at_ : Function.update memory i (.some (.bucketMmap b (0 * cfg.item) n)) i' =
      .some (.bucketMmap b o n')) : i' = i ∧ o = 0 * cfg.item ∧ n' = n := by
    obtain ⟨rfl, new⟩ | ⟨-, old⟩ := update_eq_some at_
    · cases new
      exact ⟨rfl, rfl, rfl⟩
    · exact absurd old (fresh i' o n')
  constructor
  case next => exact (Nat.one_mul _).symm
  case most => decide
  case told =>
    refine told.congr fun j => ?_
    by_cases here : j = 0
    · subst here
      rw [activatedLengths_self, Function.update_self]
    · rw [activatedLengths_of_ne here, Function.update_of_ne here]
      split <;> rfl
  case beyond =>
    intro j far
    have other : j ≠ 0 := by omega
    exact ⟨Function.update_of_ne other _ _, if_neg other⟩
  case recorded =>
    intro j used
    have here : j = 0 := by
      by_contra other
      exact used (if_neg other)
    subst here
    rw [Function.update_self]
    exact ⟨Nat.le_refl _, small⟩
  case unrecorded =>
    intro j lt unused
    obtain rfl : j = 0 := by omega
    exact absurd unused (Nat.pos_iff_ne_zero.mp some)
  case live =>
    intro i' o n' at_
    obtain ⟨rfl, rfl, rfl⟩ := only at_
    refine ⟨0, Nat.one_pos, rfl, some, small, ?_, fun _ => rfl, Finset.notMem_empty _⟩
    rw [Function.update_self]
  case apart =>
    intro i' j' o n' n'' at_ at'
    exact (only at_).1.trans (only at').1.symm
  case freedCount => rfl
  case freed_lt => exact fun k mem => absurd mem (Finset.notMem_empty k)

end Layout

/-! ## Every history -/

/-- What holds of an allocator and the memories of its instances. -/
structure Inv (cfg : AllocatorConfig) (s : MemoryState) : Prop where
  layout : ∀ b bucket, s.allocator.activeBuckets b = some bucket → b < s.allocator.mapped ∧
    ∃ handed lengths freed, Layout cfg s.memory b bucket handed lengths freed
  present : ∀ i b o n, s.memory i = some (.bucketMmap b o n) → ∃ bucket,
    s.allocator.activeBuckets b = some bucket
  allocate : ∀ b, s.allocator.bucketInstanceForAllocate = some b → ∃ bucket,
    s.allocator.activeBuckets b = some bucket ∧ bucket.nextOffset < cfg.item * duplicates

namespace Inv

variable {cfg : AllocatorConfig} {s : MemoryState}

variable {memory : Memories} {bucket : MmapBucketInstance}

variable (h : Inv cfg s)

include h

theorem forget (same : ∀ i b o n, memory i = some (.bucketMmap b o n) → s.memory i = some (.bucketMmap b o n)) :
    Inv cfg ⟨s.allocator, memory⟩ where
  layout b bucket active := by
    obtain ⟨lt, handed, lengths, freed, layout⟩ := h.layout b bucket active
    exact ⟨lt, handed, lengths, freed, layout.congr fun i o n => same i b o n⟩
  present i b o n at_ := h.present i b o n (same i b o n at_)
  allocate := h.allocate

theorem put {b mapped : Nat} {next : Option Nat} (lt : b < mapped) (le : s.allocator.mapped ≤ mapped)
    (layout : ∃ handed lengths freed, Layout cfg memory b bucket handed lengths freed)
    (others : ∀ i b' o n, b' ≠ b → memory i = some (.bucketMmap b' o n) → s.memory i = some (.bucketMmap b' o n))
    (allocate : ∀ b', next = some b' → b' = b ∧ bucket.nextOffset < cfg.item * duplicates ∨
      b' ≠ b ∧ s.allocator.bucketInstanceForAllocate = some b') :
    Inv cfg ⟨⟨Function.update s.allocator.activeBuckets b (some bucket), mapped, next⟩, memory⟩ where
  layout b' bucket' active := by
    dsimp only at active
    by_cases here : b' = b
    · subst here
      obtain rfl : bucket = bucket' := by
        rw [Function.update_self] at active
        exact Option.some.inj active
      exact ⟨lt, layout⟩
    · rw [Function.update_of_ne here] at active
      obtain ⟨lt, handed, lengths, freed, layout⟩ := h.layout b' bucket' active
      exact ⟨Nat.lt_of_lt_of_le lt le, handed, lengths, freed, layout.congr fun i o n => others i b' o n here⟩
  present i b' o n at_ := by
    by_cases here : b' = b
    · subst here
      exact ⟨bucket, Function.update_self _ _ _⟩
    · obtain ⟨bucket', active⟩ := h.present i b' o n (others i b' o n here at_)
      exact ⟨bucket', (Function.update_of_ne here _ _).trans active⟩
  allocate b' eq := by
    obtain ⟨rfl, room⟩ | ⟨other, before⟩ := allocate b' eq
    · exact ⟨bucket, Function.update_self _ _ _, room⟩
    · obtain ⟨bucket', active, room⟩ := h.allocate b' before
      exact ⟨bucket', (Function.update_of_ne other _ _).trans active, room⟩

theorem slot {i b o n : Nat} (at_ : s.memory i = some (.bucketMmap b o n)) :
    ∃ bucket handed lengths freed k, s.allocator.activeBuckets b = some bucket ∧ b < s.allocator.mapped ∧
      Layout cfg s.memory b bucket handed lengths freed ∧ k < handed ∧ o = k * cfg.item := by
  obtain ⟨bucket, active⟩ := h.present i b o n at_
  obtain ⟨lt, handed, lengths, freed, layout⟩ := h.layout b bucket active
  obtain ⟨k, inside, slot, -⟩ := layout.live i o n at_
  exact ⟨bucket, handed, lengths, freed, k, active, lt, layout, inside, slot⟩

theorem room_of_allocate {b : Nat} (active : s.allocator.activeBuckets b = some bucket)
    (next : s.allocator.bucketInstanceForAllocate = some b) : bucket.nextOffset < cfg.item * duplicates := by
  obtain ⟨bucket', active', room⟩ := h.allocate b next
  rw [active] at active'
  cases active'
  exact room

theorem replace {b : Nat} {bucket' : MmapBucketInstance}
    (active : s.allocator.activeBuckets b = some bucket) (same : bucket'.nextOffset = bucket.nextOffset)
    (layout : ∃ handed lengths freed, Layout cfg memory b bucket' handed lengths freed)
    (others : ∀ i b' o n, b' ≠ b → memory i = some (.bucketMmap b' o n) → s.memory i = some (.bucketMmap b' o n)) :
    Inv cfg ⟨s.allocator.put b bucket', memory⟩ := by
  refine h.put (h.layout b bucket active).1 (Nat.le_refl _) layout others fun b' next => ?_
  by_cases here : b' = b
  · subst here
    exact .inl ⟨rfl, same ▸ h.room_of_allocate active next⟩
  · exact .inr ⟨here, next⟩

theorem freed {i : Nat} {old : WasmMemoryData} (at_ : s.memory i = some old)
    {a : WasmMemoryAllocator} (frees : s.allocator.internalFreeWasmMemory old = some a) :
    Inv cfg ⟨a, Function.update s.memory i none⟩ := by
  have others (i' b o n : Nat) (at' : Function.update s.memory i none i' = some (.bucketMmap b o n)) :
      s.memory i' = some (.bucketMmap b o n) := ((update_eq_some at').resolve_left nofun).2
  cases old with
  | noData | malloc | singleMmap =>
    cases frees
    exact h.forget others
  | bucketMmap b o n =>
    obtain ⟨bucket, handed, lengths, freed, k, active, lt, layout, inside, rfl⟩ := h.slot at_
    have next := layout.free inside at_
    rw [WasmMemoryAllocator.internalFreeWasmMemory, active] at frees
    dsimp only [Option.bind_eq_bind, Option.bind_some] at frees
    split at frees
    · next last =>
      cases frees
      -- all slots are freed, so no memory is left in the bucket
      have all : insert k freed = Finset.range duplicates := by
        apply Finset.eq_of_subset_of_card_le
        · exact fun j mem => Finset.mem_range.mpr (Nat.lt_of_lt_of_le (next.freed_lt j mem) next.most)
        · rw [Finset.card_range, ← next.freedCount]
          exact last
      have gone (i' o' n' : Nat) : Function.update s.memory i none i' ≠ some (.bucketMmap b o' n') := by
        intro at'
        obtain ⟨j, lt, -, -, -, -, -, kept⟩ := next.live i' o' n' at'
        rw [all, Finset.mem_range] at kept
        exact kept (Nat.lt_of_lt_of_le lt next.most)
      constructor
      · intro b' bucket' active'
        dsimp only at active'
        have here : b' ≠ b := by
          rintro rfl
          rw [Function.update_self] at active'
          cases active'
        rw [Function.update_of_ne here] at active'
        obtain ⟨lt, handed, lengths, freed, layout⟩ := h.layout b' bucket' active'
        exact ⟨lt, handed, lengths, freed, layout.congr fun i' o' n' => others i' b' o' n'⟩
      · intro i' b' o' n' at'
        have here : b' ≠ b := by
          rintro rfl
          exact gone i' o' n' at'
        obtain ⟨bucket', active'⟩ := h.present i' b' o' n' (others i' b' o' n' at')
        exact ⟨bucket', (Function.update_of_ne here _ _).trans active'⟩
      · intro b' eq
        have here : b' ≠ b := by
          rintro rfl
          have room := h.room_of_allocate active eq
          have full : duplicates ≤ handed := by
            have card := congrArg Finset.card all
            rw [Finset.card_range] at card
            exact card ▸ next.freed_le
          rw [layout.next, Nat.mul_comm] at room
          exact absurd (Nat.mul_le_mul_left cfg.item full) (Nat.not_le.mpr room)
        obtain ⟨bucket', active', room⟩ := h.allocate b' eq
        exact ⟨bucket', (Function.update_of_ne here _ _).trans active', room⟩
    · cases frees
      exact h.replace active rfl ⟨_, _, _, next⟩ fun i' b' o' n' _ => others i' b' o' n'

end Inv

/-! ## Right after a memory has been made active -/

/-- The accessible bytes of the instance's bucket are its linear memory. -/
def Exact (s : MemoryState) (inst : Nat) : Prop :=
  ∀ b o n, s.memory inst = some (.bucketMmap b o n) → ∃ bucket,
    s.allocator.activeBuckets b = some bucket ∧ ∀ x, bucket.accessible x = true ↔ o ≤ x ∧ x < o + n

/-- Every other slot that the bucket has handed out is recorded. -/
def Recorded (cfg : AllocatorConfig) (s : MemoryState) : MemoryCall → Prop
  | .protect i => ∀ b o n bucket, s.memory i = some (.bucketMmap b o n) →
    s.allocator.activeBuckets b = some bucket → ∀ k, k * cfg.item < bucket.nextOffset → k * cfg.item ≠ o →
      bucket.itemsUsedSizes k ≠ 0
  | .alloc _ size useMmap => size ≠ 0 → useMmap = true →
    WasmMemoryAllocator.checkWasmMemoryCanUseMmap cfg = true → ∀ b bucket,
      s.allocator.bucketInstanceForAllocate = some b → s.allocator.activeBuckets b = some bucket →
      ∀ k, k * cfg.item < bucket.nextOffset → bucket.itemsUsedSizes k ≠ 0
  | _ => True

namespace Layout

variable {cfg : AllocatorConfig} {memory : Memories} {b : Nat} {bucket : MmapBucketInstance}
  {handed : Nat} {lengths : Nat → Nat} {freed : Finset Nat}

variable (h : Layout cfg memory b bucket handed lengths freed)

include h

theorem handed_iff (k : Nat) : k * cfg.item < bucket.nextOffset ↔ k < handed := by
  rw [h.next]
  exact Nat.mul_lt_mul_right cfg.pos

theorem closed_iff (k n : Nat) : (∀ j, j ≠ k → activatedLengths k n bucket lengths j = 0) ↔
      ∀ j, j < handed → j ≠ k → bucket.itemsUsedSizes j ≠ 0 := by
  constructor
  · intro closed j lt other unused
    have zero := closed j other
    rw [activatedLengths_of_ne other, if_pos unused] at zero
    exact absurd zero (Nat.pos_iff_ne_zero.mp (h.unrecorded j lt unused))
  · intro recorded j other
    rw [activatedLengths_of_ne other]
    split
    · next unused =>
      by_cases lt : j < handed
      · exact absurd unused (recorded j lt other)
      · exact (h.beyond j (Nat.le_of_not_lt lt)).1
    · rfl

end Layout

namespace Inv

variable {cfg : AllocatorConfig} {s s' : MemoryState}

/-- Another instance's memory is as it was, and so is what an instance had in other buckets. -/
theorem others_of_set {memory : Memories} {i b o n : Nat} (i' b' o' n' : Nat) (other : b' ≠ b)
    (at_ : Function.update memory i (some (.bucketMmap b o n)) i' = some (.bucketMmap b' o' n')) :
    memory i' = some (.bucketMmap b' o' n') := by
  refine ((update_eq_some at_).resolve_left fun ⟨_, new⟩ => ?_).2
  cases new
  exact other rfl

theorem exact_iff {i b k n : Nat} {bucket : MmapBucketInstance} {lengths : Nat → Nat}
    (at_ : s.memory i = some (.bucketMmap b (k * cfg.item) n)) (active : s.allocator.activeBuckets b = some bucket)
    (told : Shows cfg.item bucket.accessible lengths) (here : lengths k = n) (small : n ≤ cfg.item) :
    Exact s i ↔ ∀ j, j ≠ k → lengths j = 0 := by
  rw [← told.exact_iff cfg.pos small here]
  constructor
  · intro exact
    obtain ⟨shown, shown_active, bytes⟩ := exact b _ n at_
    rw [active] at shown_active
    cases shown_active
    exact bytes
  · intro bytes b' o' n' at'
    rw [at_] at at'
    cases at'
    exact ⟨bucket, active, bytes⟩

/-- **An instance is made active.** -/
theorem protect (h : Inv cfg s) {i : Nat} (step : s.step cfg (.protect i) = some s') :
    Inv cfg s' ∧ (Exact s' i ↔ Recorded cfg s (.protect i)) := by
  obtain ⟨data, at_, moved⟩ := Option.bind_eq_some_iff.mp step
  obtain ⟨a, made, same⟩ := Option.bind_eq_some_iff.mp moved
  cases same
  have elsewhere (out : ∀ b o n, data ≠ .bucketMmap b o n) (same : s.allocator = a) :
      Inv cfg { s with allocator := a } ∧ (Exact { s with allocator := a } i ↔ Recorded cfg s (.protect i)) := by
    subst same
    have none {b o n} (at' : s.memory i = some (.bucketMmap b o n)) : False := by
      rw [at_] at at'
      exact out b o n (Option.some.inj at')
    exact ⟨h, fun _ b o n bucket at' => (none at').elim, fun _ b o n at' => (none at').elim⟩
  cases data with
  | noData | malloc | singleMmap =>
    exact elsewhere (fun b o n => nofun) (Option.some.inj made)
  | bucketMmap b o n =>
    obtain ⟨bucket, handed, lengths, freed, k, active, lt, layout, inside, rfl⟩ := h.slot at_
    have after := layout.activate inside at_
    obtain ⟨bucket', active', put⟩ := Option.bind_eq_some_iff.mp made
    rw [active] at active'
    cases active'
    obtain rfl : s.allocator.put b (activated cfg k n bucket) = a := Option.some.inj put
    refine ⟨h.replace active rfl ⟨_, _, _, after⟩ fun i' b' o' n' _ => id, ?_⟩
    obtain ⟨k', -, slot, -, small, -, -, -⟩ := layout.live i _ n at_
    rw [exact_iff (s := ⟨s.allocator.put b (activated cfg k n bucket), s.memory⟩) at_ (Function.update_self _ _ _)
      after.told (activatedLengths_self k n bucket lengths) small, layout.closed_iff]
    constructor
    · intro recorded b' o' n' bucket' at' active' j lt other
      rw [at_] at at'
      cases at'
      rw [active] at active'
      cases active'
      exact recorded j ((layout.handed_iff j).mp lt) fun here => other (by rw [here])
    · intro recorded j lt other
      exact recorded b _ n bucket at_ active j ((layout.handed_iff j).mpr lt)
        fun eq => other (Nat.eq_of_mul_eq_mul_right cfg.pos eq)

theorem outside (h : Inv cfg s) {i : Nat} {data : WasmMemoryData} (out : ∀ b o n, data ≠ .bucketMmap b o n) :
    Inv cfg (s.set i (some data) s.allocator) := by
  refine h.forget fun i' b o n at_ => ?_
  exact ((update_eq_some at_).resolve_left fun new => out b o n (Option.some.inj new.2)).2

theorem allocateNonBucketMemory_outside (cfg : AllocatorConfig) (size b o n : Nat) :
    WasmMemoryAllocator.allocateNonBucketMemory cfg size ≠ .bucketMmap b o n := by
  rw [WasmMemoryAllocator.allocateNonBucketMemory]
  split <;> nofun

theorem enlarge (h : Inv cfg s) {i size : Nat} (step : s.step cfg (.enlarge i size) = some s') : Inv cfg s' := by
  obtain ⟨old, at_, moved⟩ := Option.bind_eq_some_iff.mp step
  split at moved
  · cases moved
  · next more =>
    obtain ⟨⟨data, a⟩, made, same⟩ := Option.bind_eq_some_iff.mp moved
    cases same
    cases old with
    | noData | malloc | singleMmap =>
      cases made
      exact h.outside (allocateNonBucketMemory_outside cfg size)
    | bucketMmap b o n =>
      rw [WasmMemoryAllocator.enlargeWasmMemory] at made
      dsimp only at made
      split at made
      · next small =>
        obtain ⟨bucket, handed, lengths, freed, k, active, lt, layout, inside, rfl⟩ := h.slot at_
        have after := layout.enlarge inside at_ (Nat.le_of_not_lt more) small
        obtain ⟨bucket', active', put⟩ := Option.bind_eq_some_iff.mp made
        rw [active] at active'
        cases active'
        obtain ⟨a', opened, pair⟩ := Option.bind_eq_some_iff.mp put
        cases pair
        rw [Nat.mul_div_cancel _ cfg.pos] at opened
        simp only [WasmMemoryAllocator.mprotectReadWriteWasmMemoryData, WasmMemoryAllocator.put,
          Function.update_self, Function.update_idem, Option.bind_eq_bind, Option.bind_some] at opened
        cases opened
        exact h.replace active rfl ⟨_, _, _, after⟩ others_of_set
      · obtain ⟨a', frees, pair⟩ := Option.bind_eq_some_iff.mp made
        cases pair
        have left := (h.freed at_ frees).outside (i := i) (allocateNonBucketMemory_outside cfg size)
        rwa [MemoryState.set, Function.update_idem] at left

section Alloc

variable {i size : Nat} (h : Inv cfg s) (some_ : 0 < size) (small : size ≤ cfg.item)

include h some_ small

theorem allocFirst :
    let bucket := activated cfg 0 size ⟨fun k => if k = 0 then size else 0, cfg.item, 0, fun _ => false⟩
    let s' := s.set i (some (.bucketMmap s.allocator.mapped 0 size))
      ⟨Function.update s.allocator.activeBuckets s.allocator.mapped (some bucket), s.allocator.mapped + 1,
        some s.allocator.mapped⟩
    Inv cfg s' ∧ Exact s' i := by
  intro bucket s'
  have unused (i' o n : Nat) : s.memory i' ≠ some (.bucketMmap s.allocator.mapped o n) := by
    intro at_
    obtain ⟨bucket, active⟩ := h.present i' _ o n at_
    exact Nat.lt_irrefl _ (h.layout _ bucket active).1
  have first := Layout.first (i := i) unused some_ small
  rw [Nat.zero_mul] at first
  constructor
  · refine h.put (Nat.lt_succ_self _) (Nat.le_succ _) ⟨1, _, ∅, first⟩ others_of_set ?_
    intro b' eq
    refine .inl ⟨(Option.some.inj eq).symm, ?_⟩
    show cfg.item < cfg.item * 10
    have pos : 0 < cfg.item := cfg.pos
    omega
  · have at_ : s'.memory i = some (.bucketMmap s.allocator.mapped (0 * cfg.item) size) := by
      rw [Nat.zero_mul]
      exact Function.update_self _ _ _
    have active : s'.allocator.activeBuckets s.allocator.mapped = some bucket := Function.update_self _ _ _
    rw [exact_iff at_ active first.told (Function.update_self _ _ _) small]
    exact fun j other => Function.update_of_ne other _ _

theorem allocNext (fresh : s.memory i = none) {b : Nat} {bucket : MmapBucketInstance}
    (next : s.allocator.bucketInstanceForAllocate = some b) (active : s.allocator.activeBuckets b = some bucket) :
    let bucket' := activated cfg (bucket.nextOffset / cfg.item) size
      { bucket with nextOffset := bucket.nextOffset + cfg.item }
    let s' := s.set i (some (.bucketMmap b bucket.nextOffset size))
      ⟨Function.update s.allocator.activeBuckets b (some bucket'), s.allocator.mapped,
        if bucket.nextOffset + cfg.item ≥ cfg.item * duplicates then none else some b⟩
    Inv cfg s' ∧ (Exact s' i ↔ ∀ k, k * cfg.item < bucket.nextOffset → bucket.itemsUsedSizes k ≠ 0) := by
  intro bucket' s'
  obtain ⟨lt, handed, lengths, freed, layout⟩ := h.layout b bucket active
  have offset := layout.next
  have slot : bucket.nextOffset / cfg.item = handed := by
    rw [offset]
    exact Nat.mul_div_cancel _ cfg.pos
  have left : handed < duplicates := by
    have room := h.room_of_allocate active next
    rw [offset, Nat.mul_comm] at room
    exact Nat.lt_of_mul_lt_mul_left room
  have after := layout.alloc (i := i) left fresh some_ small
  have bucket_eq : bucket' = activated cfg handed size
      { bucket with nextOffset := bucket.nextOffset + cfg.item } := by
    simp only [bucket', slot]
  rw [← bucket_eq, ← offset] at after
  constructor
  · refine h.put lt (Nat.le_refl _) ⟨_, _, _, after⟩ others_of_set ?_
    intro b' eq
    split at eq
    · cases eq
    · next room =>
      exact .inl ⟨(Option.some.inj eq).symm, Nat.lt_of_not_le room⟩
  · have at_ : s'.memory i = some (.bucketMmap b (handed * cfg.item) size) :=
      offset ▸ Function.update_self _ _ _
    have active' : s'.allocator.activeBuckets b = some bucket' := Function.update_self _ _ _
    rw [exact_iff at_ active' after.told (activatedLengths_self _ _ _ _) small, layout.closed_iff]
    constructor
    · intro recorded k before
      have lt := (layout.handed_iff k).mp before
      exact recorded k lt (Nat.ne_of_lt lt)
    · exact fun recorded j lt _ => recorded j ((layout.handed_iff j).mpr lt)

end Alloc

/-- **A memory is allocated.** -/
theorem alloc (h : Inv cfg s) {i size : Nat} {useMmap : Bool} (step : s.step cfg (.alloc i size useMmap) = some s') :
    Inv cfg s' ∧ (Exact s' i ↔ Recorded cfg s (.alloc i size useMmap)) := by
  rw [MemoryState.step] at step
  split at step
  · cases step
  next guard =>
  rw [not_or, not_not, Nat.not_lt] at guard
  obtain ⟨fresh, small⟩ := guard
  obtain ⟨⟨data, a⟩, made, same⟩ := Option.bind_eq_some_iff.mp step
  cases same
  -- a memory outside of buckets leaves nothing to show
  have elsewhere (out : ∀ b o n, data ≠ .bucketMmap b o n) (same : s.allocator = a)
      (cond : Recorded cfg s (.alloc i size useMmap)) :
      Inv cfg (s.set i (some data) a) ∧
        (Exact (s.set i (some data) a) i ↔ Recorded cfg s (.alloc i size useMmap)) := by
    subst same
    refine ⟨h.outside out, fun _ => cond, fun _ b o n at_ => absurd ?_ (out b o n)⟩
    exact Option.some.inj ((update_eq_some at_).resolve_right fun old => old.1 rfl).2
  rw [WasmMemoryAllocator.allocInitWasmMemory] at made
  split at made
  · next zero =>
    cases made
    exact elsewhere (fun _ _ _ => nofun) rfl fun some_ => absurd zero some_
  next some_ =>
  have pos : 0 < size := Nat.pos_of_ne_zero some_
  split at made
  · next bucketed =>
    obtain ⟨wanted, can⟩ := Bool.and_eq_true_iff.mp bucketed
    cases next : s.allocator.bucketInstanceForAllocate with
    | none =>
      simp only [WasmMemoryAllocator.getOrCreateMmapSpace, next, WasmMemoryAllocator.put,
        WasmMemoryAllocator.mprotectReadWriteWasmMemoryData, Function.update_self, Function.update_idem,
        Option.bind_eq_bind, Option.bind_some, if_true] at made
      cases made
      obtain ⟨inv, exact⟩ := h.allocFirst (i := i) pos small
      rw [activated, Nat.zero_mul] at inv exact
      refine ⟨inv, fun _ _ _ _ b bucket next' => ?_, fun _ => exact⟩
      rw [next] at next'
      cases next'
    | some b =>
      obtain ⟨bucket, active, -⟩ := h.allocate b next
      simp only [WasmMemoryAllocator.getOrCreateMmapSpace, next, active, WasmMemoryAllocator.put,
        WasmMemoryAllocator.mprotectReadWriteWasmMemoryData, Function.update_self, Function.update_idem,
        Option.bind_eq_bind, Option.bind_some, if_true] at made
      cases made
      obtain ⟨inv, exact⟩ := h.allocNext pos small fresh next active
      have offset : bucket.nextOffset / cfg.item * cfg.item = bucket.nextOffset := by
        obtain ⟨-, handed, lengths, freed, layout⟩ := h.layout b bucket active
        rw [layout.next, Nat.mul_div_cancel _ cfg.pos]
      rw [activated, offset] at inv exact
      refine ⟨inv, exact.trans ⟨fun recorded _ _ _ b' bucket' next' active' => ?_, fun recorded => ?_⟩⟩
      · rw [next] at next'
        cases next'
        rw [active] at active'
        cases active'
        exact recorded
      · exact recorded some_ wanted can b bucket next active
  · next not =>
    cases made
    refine elsewhere (allocateNonBucketMemory_outside cfg size) rfl fun _ wanted can => ?_
    exact absurd (by rw [wanted, can]; rfl) not

theorem init (cfg : AllocatorConfig) : Inv cfg (memorySystem cfg).init :=
  ⟨fun _ _ => nofun, fun _ _ _ _ => nofun, fun _ => nofun⟩

/-- **Every call keeps the buckets laid out.** -/
theorem step (h : Inv cfg s) {call : MemoryCall} (moved : s.step cfg call = some s') : Inv cfg s' := by
  cases call with
  | alloc i size useMmap => exact (h.alloc moved).1
  | enlarge i size => exact h.enlarge moved
  | free i =>
    obtain ⟨old, at_, rest⟩ := Option.bind_eq_some_iff.mp moved
    obtain ⟨a, frees, same⟩ := Option.bind_eq_some_iff.mp rest
    cases same
    exact h.freed at_ frees
  | protect i => exact (h.protect moved).1

theorem of_run {calls : List MemoryCall}
    (reached : (memorySystem cfg).run (memorySystem cfg).init calls = some s) : Inv cfg s :=
  System.run_invariant (fun _ _ _ h _ moved => h.step moved) (init cfg)
    (System.along_true _ _) reached

end Inv

/-- The instance whose memory a call allocates or makes active. -/
def MemoryCall.activates : MemoryCall → Option Nat
  | .alloc i _ _ | .protect i => some i
  | .enlarge .. | .free .. => none

/-- **The memories of a bucket are isolated exactly where the slots are recorded.** In every history, right
after an instance's memory has been allocated or made active, the accessible bytes of its bucket are its
linear memory if and only if every other slot that the bucket has handed out was recorded. -/
theorem exact_iff_recorded (cfg : AllocatorConfig) (calls : List MemoryCall) (s s' : MemoryState)
    (call : MemoryCall) (i : Nat) (reached : (memorySystem cfg).run (memorySystem cfg).init calls = some s)
    (step : (memorySystem cfg).step s call = some s') (active : call.activates = some i) :
    Exact s' i ↔ Recorded cfg s call := by
  have h := Inv.of_run reached
  cases call with
  | alloc j size useMmap =>
    cases active
    exact (h.alloc step).2
  | protect j =>
    cases active
    exact (h.protect step).2
  | enlarge | free => cases active

def slots32M : AllocatorConfig where
  useMmap := true
  initFile := true
  mmapMemoryBucketGrowMaxSize := 33554432
  pos := by decide

/-- The second instance of a bucket sees its own memory only. -/
theorem exact_second : ∃ s s', (memorySystem slots32M).run (memorySystem slots32M).init [.alloc 0 65536 true] = some s ∧
    (memorySystem slots32M).step s (.alloc 1 65536 true) = some s' ∧ Exact s' 1 := by
  refine ⟨_, _, rfl, rfl, ?_⟩
  refine (exact_iff_recorded slots32M [.alloc 0 65536 true] _ _ (.alloc 1 65536 true) 1 rfl rfl rfl).mpr ?_
  intro _ _ _ b bucket next active k before
  cases next
  cases active
  have first : k = 0 := by
    have lt : k * 33554432 < 33554432 := before
    omega
  subst first
  decide

/-- The third instance sees the second one's memory, whose slot is not recorded. -/
theorem second_open_to_third : ∃ s, (memorySystem slots32M).run (memorySystem slots32M).init
      [.alloc 0 65536 true, .alloc 1 65536 true, .alloc 2 65536 true] = some s ∧
    s.memory 1 = some (.bucketMmap 0 33554432 65536) ∧ ¬ Exact s 2 := by
  refine ⟨_, rfl, rfl, ?_⟩
  intro exact
  obtain ⟨bucket, active, bytes⟩ := exact 0 67108864 65536 rfl
  cases active
  have own := (bytes 33554432).mp (by decide)
  omega

end Dtvm.Wasm
