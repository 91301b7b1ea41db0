import Dtvm.Jit.Blocks

/-!
# The depths of the analyzer

What the phases of the analyzer do to the depths of the blocks, whatever the blocks are. Every phase is made of
updates that refine what is known (`Refined`): a depth stays or its block is invalidated, and what is invalidated
is closed under the successors (`Closed`). So a block that has got a depth, or none for good, keeps that (`Held`).
`propagateEntryDepths` hands the depth of a block to its successors (`Resolved`); `analyze_resolved` says what this
makes of the whole analysis.
-/

namespace Dtvm.Jit.Analyzer

variable {infos infos' : List BlockInfo}

/-! ## Finding a block -/

def Distinct (infos : List BlockInfo) : Prop := (infos.map fun info => info.entryPC).Nodup

theorem Distinct.eq (h : Distinct infos) {a b : BlockInfo} (ha : a ∈ infos) (hb : b ∈ infos)
    (same : a.entryPC = b.entryPC) : a = b :=
  List.inj_on_of_nodup_map h ha hb same

theorem find?_mem {pc : Nat} {info : BlockInfo} (found : find? infos pc = some info) :
    info ∈ infos ∧ info.entryPC = pc := by
  rw [find?, List.find?_eq_some_iff_append] at found
  obtain ⟨is, before, after, rfl, -⟩ := found
  exact ⟨List.mem_append_right _ List.mem_cons_self, by simpa using is⟩

theorem Distinct.find?_eq (h : Distinct infos) {b : BlockInfo} (mem : b ∈ infos) : find? infos b.entryPC = some b := by
  cases found : find? infos b.entryPC with
  | none =>
    have absent := List.find?_eq_none.mp found b mem
    rw [beq_self_eq_true] at absent
    exact absurd rfl absent
  | some c =>
    obtain ⟨memC, same⟩ := find?_mem found
    rw [h.eq memC mem same]

theorem entryPC_ne_of_find? {pc : Nat} (missing : find? infos pc = none) {b : BlockInfo}
    (mem : b ∈ infos) : b.entryPC ≠ pc := by
  rw [find?, List.find?_eq_none] at missing
  simpa using missing b mem

/-! ## Visiting -/

structure Fresh (visited successors new : List Nat) : Prop where
  covers : ∀ pc ∈ successors, pc ∈ visited ++ new
  isNew : ∀ pc ∈ new, pc ∈ successors ∧ pc ∉ visited
  nodup : new.Nodup

theorem freshSuccessors_fresh (visited successors : List Nat) :
    Fresh visited successors (freshSuccessors visited successors) := by
  rw [freshSuccessors]
  induction successors using List.reverseRecOn with
  | nil => exact ⟨fun _ mem => absurd mem List.not_mem_nil, fun _ mem => absurd mem List.not_mem_nil, .nil⟩
  | append_singleton successors pc ih =>
    rw [List.foldl_append, List.foldl_cons, List.foldl_nil]
    generalize successors.foldl _ [] = new at ih
    obtain ⟨covers, fresh, nodup⟩ := ih
    split
    · next known =>
      refine ⟨fun q mem => ?_, fun q mem => ?_, nodup⟩
      · rcases List.mem_append.mp mem with old | new
        · exact covers q old
        · exact List.mem_singleton.mp new ▸ known
      · exact ⟨List.mem_append_left _ (fresh q mem).1, (fresh q mem).2⟩
    · next unknown =>
      rw [List.mem_append, not_or] at unknown
      refine ⟨fun q mem => ?_, fun q mem => ?_, ?_⟩
      · rw [← List.append_assoc]
        rcases List.mem_append.mp mem with old | new
        · exact List.mem_append_left _ (covers q old)
        · exact List.mem_append_right _ new
      · rcases List.mem_append.mp mem with old | new
        · exact ⟨List.mem_append_left _ (fresh q old).1, (fresh q old).2⟩
        · obtain rfl := List.mem_singleton.mp new
          exact ⟨List.mem_append_right _ List.mem_cons_self, unknown.1⟩
      · rw [List.nodup_append]
        refine ⟨nodup, List.nodup_singleton _, fun a ha b hb same => ?_⟩
        rw [same, List.mem_singleton.mp hb] at ha
        exact unknown.2 ha

/-- The successors of the blocks that are visited and no longer on the work list are visited. -/
def Visited (infos : List BlockInfo) (workList visited : List Nat) : Prop :=
  ∀ b ∈ infos, b.entryPC ∈ visited → b.entryPC ∉ workList → ∀ pc ∈ b.successors, pc ∈ visited

def unvisited (infos : List BlockInfo) (visited : List Nat) : List Nat :=
  (infos.flatMap fun info => info.successors).filter fun pc => decide (pc ∉ visited)

theorem length_unvisited {b : BlockInfo} (mem : b ∈ infos) {visited new : List Nat}
    (fresh : Fresh visited b.successors new) :
    new.length + (unvisited infos (visited ++ new)).length ≤ (unvisited infos visited).length := by
  have within : new ⊆ (unvisited infos visited).filter fun pc => decide (pc ∈ new) := by
    intro pc isNew
    obtain ⟨succ, unseen⟩ := fresh.isNew pc isNew
    rw [unvisited, List.mem_filter, List.mem_filter, List.mem_flatMap]
    exact ⟨⟨⟨b, mem, succ⟩, decide_eq_true unseen⟩, decide_eq_true isNew⟩
  have rest : unvisited infos (visited ++ new) =
      (unvisited infos visited).filter fun pc => !decide (pc ∈ new) := by
    rw [unvisited, unvisited, List.filter_filter]
    apply List.filter_congr
    intro pc _
    by_cases h : pc ∈ visited <;> by_cases h' : pc ∈ new <;> simp [h, h']
  have split := List.length_eq_length_filter_add (l := unvisited infos visited)
    fun pc => decide (pc ∈ new)
  have few := (List.subperm_of_subset fresh.nodup within).length_le
  rw [rest]
  omega

theorem visitLoop_closed (distinct : Distinct infos) (fuel : Nat) (workList visited : List Nat)
    (h : Visited infos workList visited) (enough : workList.length + (unvisited infos visited).length ≤ fuel) :
    Visited infos [] (visitLoop infos fuel workList visited) ∧ visited ⊆ visitLoop infos fuel workList visited := by
  induction fuel generalizing workList visited with
  | zero =>
    obtain rfl : workList = [] := List.length_eq_zero_iff.mp (by omega)
    exact ⟨h, fun _ mem => mem⟩
  | succ fuel ih =>
    cases workList with
    | nil => exact ⟨h, fun _ mem => mem⟩
    | cons pc workList =>
      rw [List.length_cons] at enough
      rw [visitLoop]
      split
      · next missing =>
        apply ih workList visited _ (by omega)
        intro b mem seen done
        apply h b mem seen
        rw [List.mem_cons, not_or]
        exact ⟨entryPC_ne_of_find? missing mem, done⟩
      · next info found =>
        obtain ⟨mem, entry⟩ := find?_mem found
        have fresh := freshSuccessors_fresh visited info.successors
        have fewer := length_unvisited mem fresh
        generalize freshSuccessors visited info.successors = new at fresh fewer ⊢
        obtain ⟨closed, more⟩ := ih (workList ++ new) (visited ++ new) (by
          intro b hb seen done succ isSucc
          rw [List.mem_append, not_or] at done
          rcases List.mem_append.mp seen with old | isNew
          · by_cases here : b.entryPC = pc
            · rw [distinct.eq hb mem (here.trans entry.symm)] at isSucc
              exact fresh.covers succ isSucc
            · apply List.mem_append_left
              apply h b hb old _ succ isSucc
              rw [List.mem_cons, not_or]
              exact ⟨here, done.1⟩
          · exact absurd isNew done.2) (by
          rw [List.length_append]
          omega)
        exact ⟨closed, fun q old => more (List.mem_append_left _ old)⟩

theorem reachable_closed (distinct : Distinct infos) (pc : Nat) :
    pc ∈ reachable infos pc ∧ ∀ b ∈ infos, b.entryPC ∈ reachable infos pc →
      ∀ succ ∈ b.successors, succ ∈ reachable infos pc := by
  have few : (unvisited infos [pc]).length ≤ (infos.flatMap fun info => info.successors).length :=
    List.length_filter_le _ _
  obtain ⟨closed, more⟩ := visitLoop_closed distinct
    (1 + (infos.flatMap fun info => info.successors).length) [pc] [pc]
    (fun b _ seen done => absurd seen done) (by
      rw [List.length_singleton]
      omega)
  exact ⟨more (List.mem_singleton_self pc), fun b mem seen => closed b mem seen List.not_mem_nil⟩

/-! ## Updates -/

/-- The blocks without a depth for good are closed under the successors. -/
structure Closed (infos : List BlockInfo) : Prop where
  successors : ∀ b ∈ infos, b.hasInconsistentEntryDepth = true →
    ∀ succ ∈ infos, succ.entryPC ∈ b.successors → succ.hasInconsistentEntryDepth = true
  unresolved : ∀ b ∈ infos, b.hasInconsistentEntryDepth = true → b.resolvedEntryStackDepth < 0

/-- What becomes of a block; `new` are those that may get a depth. -/
structure Evolves (new : List Nat) (b b' : BlockInfo) : Prop where
  body : b'.toBlockBody = b.toBlockBody
  inconsistent : b.hasInconsistentEntryDepth = true → b'.hasInconsistentEntryDepth = true
  kept : 0 ≤ b.resolvedEntryStackDepth →
    b'.hasInconsistentEntryDepth = true ∨ b'.resolvedEntryStackDepth = b.resolvedEntryStackDepth
  old : 0 ≤ b'.resolvedEntryStackDepth → b'.entryPC ∉ new →
    b.resolvedEntryStackDepth = b'.resolvedEntryStackDepth
  fresh : b'.entryPC ∈ new → b.hasInconsistentEntryDepth = false ∧ b.resolvedEntryStackDepth < 0

structure Refined (infos infos' : List BlockInfo) (new : List Nat) : Prop where
  bodies : infos'.map BlockInfo.toBlockBody = infos.map BlockInfo.toBlockBody
  evolves : ∀ b' ∈ infos', ∃ b ∈ infos, Evolves new b b'
  closed : Closed infos → Closed infos'

/-- The block at `pc` has the depth `d`, or none for good. -/
def Held (infos : List BlockInfo) (pc : Nat) (d : Int) : Prop :=
  ∀ b ∈ infos, b.entryPC = pc → b.hasInconsistentEntryDepth = true ∨ b.resolvedEntryStackDepth = d

theorem Evolves.trans {new new' : List Nat} {a b c : BlockInfo} (h : Evolves new a b)
    (h' : Evolves new' b c) : Evolves (new ++ new') a c := by
  have entry : b.entryPC = c.entryPC := congrArg BlockBody.entryPC h'.body.symm
  refine ⟨h'.body.trans h.body, fun bad => h'.inconsistent (h.inconsistent bad), fun nonneg => ?_,
    fun nonneg fresh => ?_, fun isNew => ?_⟩
  · rcases h.kept nonneg with bad | same
    · exact .inl (h'.inconsistent bad)
    · rw [← same] at nonneg ⊢
      exact h'.kept nonneg
  · rw [List.mem_append, not_or] at fresh
    have same := h'.old nonneg fresh.2
    rw [← same] at nonneg ⊢
    exact h.old nonneg (entry ▸ fresh.1)
  · rcases List.mem_append.mp isNew with first | second
    · exact h.fresh (entry ▸ first)
    · obtain ⟨good, low⟩ := h'.fresh second
      refine ⟨Bool.eq_false_of_not_eq_true fun bad => ?_, Int.not_le.mp fun nonneg => ?_⟩
      · rw [h.inconsistent bad] at good
        cases good
      · rcases h.kept nonneg with bad | same
        · rw [bad] at good
          cases good
        · omega

namespace Refined

variable {new new' : List Nat}

theorem refl (infos : List BlockInfo) : Refined infos infos [] :=
  ⟨rfl, fun b mem => ⟨b, mem, rfl, id, fun _ => .inr rfl, fun _ _ => rfl, (nomatch ·)⟩, id⟩

section

variable (h : Refined infos infos' new)

include h

theorem trans {infos'' : List BlockInfo} (h' : Refined infos' infos'' new') : Refined infos infos'' (new ++ new') := by
  refine ⟨h'.bodies.trans h.bodies, fun c mem => ?_, fun closed => h'.closed (h.closed closed)⟩
  obtain ⟨b, hb, later⟩ := h'.evolves c mem
  obtain ⟨a, ha, sooner⟩ := h.evolves b hb
  exact ⟨a, ha, sooner.trans later⟩

theorem distinct (ok : Distinct infos) : Distinct infos' := by
  have entries := congrArg (List.map BlockBody.entryPC) h.bodies
  rw [List.map_map, List.map_map] at entries
  have entries : infos'.map (fun info => info.entryPC) = infos.map fun info => info.entryPC := entries
  rw [Distinct, entries]
  exact ok

theorem held {pc : Nat} {d : Int} (nonneg : 0 ≤ d) (held : Held infos pc d) : Held infos' pc d := by
  intro b' mem entry
  obtain ⟨b, hb, step⟩ := h.evolves b' mem
  rcases held b hb ((congrArg BlockBody.entryPC step.body).symm.trans entry) with bad | same
  · exact .inl (step.inconsistent bad)
  · rw [← same] at nonneg ⊢
    exact step.kept nonneg

end

/-- The blocks change one by one. A block that is bad afterwards was so before, or has only bad successors
now. -/
theorem map {f : BlockInfo → BlockInfo} (each : ∀ b ∈ infos, Evolves new b (f b))
    (bad : ∀ b ∈ infos, (f b).hasInconsistentEntryDepth = true →
      b.hasInconsistentEntryDepth = true ∧ (f b).resolvedEntryStackDepth = b.resolvedEntryStackDepth ∨
      (f b).resolvedEntryStackDepth < 0 ∧ ∀ s ∈ infos, s.entryPC ∈ b.successors →
        (f s).hasInconsistentEntryDepth = true) : Refined infos (infos.map f) new := by
  refine ⟨?_, fun b' mem => ?_, fun closed => ⟨?_, ?_⟩⟩
  · rw [List.map_map]
    exact List.map_congr_left fun b hb => (each b hb).body
  · obtain ⟨b, hb, rfl⟩ := List.mem_map.mp mem
    exact ⟨b, hb, each b hb⟩
  · intro b' mem isBad s' mem' succ
    obtain ⟨b, hb, rfl⟩ := List.mem_map.mp mem
    obtain ⟨s, hs, rfl⟩ := List.mem_map.mp mem'
    rw [(each s hs).body, (each b hb).body] at succ
    rcases bad b hb isBad with ⟨old, -⟩ | ⟨-, all⟩
    · exact (each s hs).inconsistent (closed.successors b hb old s hs succ)
    · exact all s hs succ
  · intro b' mem isBad
    obtain ⟨b, hb, rfl⟩ := List.mem_map.mp mem
    rcases bad b hb isBad with ⟨old, same⟩ | ⟨low, -⟩
    · rw [same]
      exact closed.unresolved b hb old
    · exact low

theorem enter {pc : Nat} (unresolved : ∀ b ∈ infos, b.entryPC = pc →
      b.hasInconsistentEntryDepth = false ∧ b.resolvedEntryStackDepth < 0) (depth : Int) :
    Refined infos (Analyzer.modify infos pc fun i => { i with resolvedEntryStackDepth := depth }) [pc] := by
  refine .map (fun b hb => ?_) fun b hb isBad => ?_
  · split
    · next here =>
      obtain ⟨good, low⟩ := unresolved b hb here
      refine ⟨rfl, id, fun nonneg => ?_, fun _ fresh => ?_, fun _ => ⟨good, low⟩⟩
      · exact absurd nonneg (Int.not_le.mpr low)
      · exact absurd (List.mem_singleton.mpr here) fresh
    · next away =>
      exact ⟨rfl, id, fun _ => .inr rfl, fun _ _ => rfl, fun isNew => absurd (List.mem_singleton.mp isNew) away⟩
  · by_cases here : b.entryPC = pc
    · rw [if_pos here] at isBad
      exact absurd (isBad : b.hasInconsistentEntryDepth = true) (by rw [(unresolved b hb here).1]; decide)
    · rw [if_neg here] at isBad ⊢
      exact .inl ⟨isBad, rfl⟩

theorem invalidate (ok : Distinct infos) (pc : Nat) : Refined infos (invalidateReachableEntryDepths infos pc) [] := by
  obtain ⟨-, within⟩ := reachable_closed ok pc
  refine .map (fun b hb => ?_) fun b hb isBad => ?_
  · split
    · exact ⟨rfl, fun _ => rfl, fun _ => .inl rfl,
        fun nonneg => absurd nonneg (show ¬ (0 : Int) ≤ -1 by decide), (nomatch ·)⟩
    · exact ⟨rfl, id, fun _ => .inr rfl, fun _ _ => rfl, (nomatch ·)⟩
  · by_cases seen : b.entryPC ∈ reachable infos pc
    · rw [if_pos seen]
      refine .inr ⟨show (-1 : Int) < 0 by decide, fun s hs succ => ?_⟩
      rw [if_pos (within b hb seen _ succ)]
    · rw [if_neg seen] at isBad ⊢
      exact .inl ⟨isBad, rfl⟩

end Refined

def Kept (infos infos' : List BlockInfo) : Prop :=
  ∃ f : BlockInfo → BlockInfo, infos' = infos.map f ∧ ∀ b, (f b).toBlockBody = b.toBlockBody ∧
    (f b).resolvedEntryStackDepth = b.resolvedEntryStackDepth ∧
    (f b).hasInconsistentEntryDepth = b.hasInconsistentEntryDepth

namespace Kept

theorem refl (infos : List BlockInfo) : Kept infos infos :=
  ⟨id, (List.map_id _).symm, fun _ => ⟨rfl, rfl, rfl⟩⟩

theorem trans {infos'' : List BlockInfo} (h : Kept infos infos') (h' : Kept infos' infos'') : Kept infos infos'' := by
  obtain ⟨f, rfl, same⟩ := h
  obtain ⟨g, rfl, same'⟩ := h'
  refine ⟨g ∘ f, List.map_map, fun b => ?_⟩
  obtain ⟨body, depth, bad⟩ := same b
  obtain ⟨body', depth', bad'⟩ := same' (f b)
  exact ⟨body'.trans body, depth'.trans depth, bad'.trans bad⟩

theorem modify {f : BlockInfo → BlockInfo} (same : ∀ b, (f b).toBlockBody = b.toBlockBody ∧
      (f b).resolvedEntryStackDepth = b.resolvedEntryStackDepth ∧
      (f b).hasInconsistentEntryDepth = b.hasInconsistentEntryDepth) (infos : List BlockInfo) (pc : Nat) :
    Kept infos (modify infos pc f) := by
  refine ⟨_, rfl, fun b => ?_⟩
  split
  · exact same b
  · exact ⟨rfl, rfl, rfl⟩

theorem refined (h : Kept infos infos') : Refined infos infos' [] := by
  obtain ⟨f, rfl, same⟩ := h
  refine .map (fun b hb => ?_) fun b hb isBad => ?_
  · obtain ⟨body, depth, bad⟩ := same b
    exact ⟨body, fun h => bad.trans h, fun _ => .inr depth, fun _ _ => depth.symm, (nomatch ·)⟩
  · rw [(same b).2.2] at isBad
    exact .inl ⟨isBad, (same b).2.1⟩

end Kept

/-! ## Handing depths on -/

/-- The blocks are refined, and those that may have got a depth are put on the work list. -/
def Extends (st st' : List BlockInfo × List Nat) : Prop :=
  ∃ new, st'.2 = st.2 ++ new ∧ Refined st.1 st'.1 new

namespace Extends

theorem refl (st : List BlockInfo × List Nat) : Extends st st :=
  ⟨[], (List.append_nil _).symm, .refl _⟩

theorem trans {a b c : List BlockInfo × List Nat} (h : Extends a b) (h' : Extends b c) : Extends a c := by
  obtain ⟨new, eq, refined⟩ := h
  obtain ⟨new', eq', refined'⟩ := h'
  exact ⟨new ++ new', by rw [eq', eq, List.append_assoc], refined.trans refined'⟩

theorem distinct {a b : List BlockInfo × List Nat} (h : Extends a b) (ok : Distinct a.1) : Distinct b.1 := by
  obtain ⟨new, -, refined⟩ := h
  exact refined.distinct ok

theorem foldl {step : List BlockInfo × List Nat → Nat → List BlockInfo × List Nat}
    (each : ∀ st pc, Distinct st.1 → Extends st (step st pc)) (pcs : List Nat)
    (st : List BlockInfo × List Nat) (ok : Distinct st.1) : Extends st (pcs.foldl step st) := by
  induction pcs generalizing st with
  | nil => exact .refl st
  | cons pc pcs ih =>
    have first := each st pc ok
    exact first.trans (ih (step st pc) (first.distinct ok))

end Extends

theorem enterAt_extends (depth : Int) (st : List BlockInfo × List Nat) (pc : Nat)
    (ok : Distinct st.1) : Extends st (enterAt depth st pc) := by
  rw [enterAt]
  split
  · exact .refl st
  · next info found =>
    obtain ⟨mem, entry⟩ := find?_mem found
    split
    · exact .refl st
    · next good =>
      split
      · next low =>
        refine ⟨[pc], rfl, .enter (fun b hb here => ?_) depth⟩
        rw [ok.eq hb mem (here.trans entry.symm)]
        exact ⟨Bool.eq_false_of_not_eq_true good, low⟩
      · split
        · exact ⟨[], (List.append_nil _).symm, .invalidate ok pc⟩
        · exact .refl st

theorem held_modify (infos : List BlockInfo) (pc : Nat) (depth : Int) :
    Held (modify infos pc fun i => { i with resolvedEntryStackDepth := depth }) pc depth := by
  intro b' hb' here
  obtain ⟨b, hb, rfl⟩ := List.mem_map.mp hb'
  by_cases same : b.entryPC = pc
  · rw [if_pos same]
    exact .inr rfl
  · rw [if_neg same] at here
    exact absurd here same

theorem enterAt_held (depth : Int) (st : List BlockInfo × List Nat) (pc : Nat) (ok : Distinct st.1) :
    Held (enterAt depth st pc).1 pc depth := by
  rw [enterAt]
  split
  · next missing => exact fun b hb here => absurd here (entryPC_ne_of_find? missing hb)
  · next info found =>
    obtain ⟨mem, entry⟩ := find?_mem found
    have only {b : BlockInfo} (hb : b ∈ st.1) (here : b.entryPC = pc) : b = info :=
      ok.eq hb mem (here.trans entry.symm)
    split
    · next bad =>
      intro b hb here
      rw [only hb here]
      exact .inl bad
    · split
      · exact held_modify st.1 pc depth
      · split
        · intro b' hb' here
          obtain ⟨b, hb, rfl⟩ := List.mem_map.mp hb'
          have seen := (reachable_closed ok pc).1
          by_cases same : b.entryPC ∈ reachable st.1 pc
          · rw [if_pos same]
            exact .inl rfl
          · rw [if_neg same] at here
            rw [here] at same
            exact absurd seen same
        · next same =>
          intro b hb here
          rw [only hb here]
          exact .inr (not_not.mp same)

theorem foldl_enterAt_held {depth : Int} (nonneg : 0 ≤ depth) (pcs : List Nat)
    (st : List BlockInfo × List Nat) (ok : Distinct st.1) :
    ∀ pc ∈ pcs, Held (pcs.foldl (enterAt depth) st).1 pc depth := by
  induction pcs generalizing st with
  | nil => exact fun pc mem => absurd mem List.not_mem_nil
  | cons q pcs ih =>
    have first := enterAt_extends depth st q ok
    rw [List.forall_mem_cons]
    refine ⟨?_, ih (enterAt depth st q) (first.distinct ok)⟩
    obtain ⟨new, -, refined⟩ :=
      Extends.foldl (enterAt_extends depth) pcs (enterAt depth st q) (first.distinct ok)
    exact refined.held nonneg (enterAt_held depth st q ok)

/-- Every block with a depth has handed it on, except those on the work list. -/
structure Resolved (infos : List BlockInfo) (workList : List Nat) : Prop where
  distinct : Distinct infos
  closed : Closed infos
  follows : ∀ b ∈ infos, 0 ≤ b.resolvedEntryStackDepth → b.entryPC ∉ workList →
    0 ≤ b.resolvedEntryStackDepth + b.stackHeightDiff →
    ∀ pc ∈ b.successors, Held infos pc (b.resolvedEntryStackDepth + b.stackHeightDiff)

namespace Resolved

variable {workList new : List Nat}

theorem of_refined (refined : Refined infos infos' new) (ok : Distinct infos) (closed : Closed infos)
    (handed : ∀ b ∈ infos, 0 ≤ b.resolvedEntryStackDepth → b.entryPC ∉ workList →
      0 ≤ b.resolvedEntryStackDepth + b.stackHeightDiff →
      ∀ pc ∈ b.successors, Held infos' pc (b.resolvedEntryStackDepth + b.stackHeightDiff)) :
    Resolved infos' (workList ++ new) := by
  refine ⟨refined.distinct ok, refined.closed closed, fun b' mem nonneg done exit pc succ => ?_⟩
  rw [List.mem_append, not_or] at done
  obtain ⟨b, hb, step⟩ := refined.evolves b' mem
  have depth := step.old nonneg done.2
  rw [step.body] at done exit succ ⊢
  rw [← depth] at nonneg exit ⊢
  exact handed b hb nonneg done.1 exit pc succ

theorem refine (h : Resolved infos workList) (refined : Refined infos infos' new) : Resolved infos' (workList ++ new) :=
  of_refined refined h.distinct h.closed fun b hb nonneg done exit pc succ =>
    refined.held exit (h.follows b hb nonneg done exit pc succ)

theorem refine_nil (h : Resolved infos workList) (refined : Refined infos infos' []) : Resolved infos' workList := by
  have refined := h.refine refined
  rwa [List.append_nil] at refined

end Resolved

theorem propagateStep_refined (ok : Distinct infos) (pc : Nat) :
    Refined infos (propagateStep infos pc).1 (propagateStep infos pc).2 := by
  rw [propagateStep]
  split
  · exact .refl infos
  · next info found =>
    split
    · exact .refl infos
    · have first := (Kept.modify (f := fun i =>
        { i with resolvedExitStackDepth := info.resolvedEntryStackDepth + info.stackHeightDiff })
        (fun _ => ⟨rfl, rfl, rfl⟩) infos pc).refined
      obtain ⟨new, eq, refined⟩ := Extends.foldl
        (enterAt_extends (info.resolvedEntryStackDepth + info.stackHeightDiff)) info.successors
        (_, []) (first.distinct ok)
      have all := first.trans refined
      rw [← eq] at all
      exact all

theorem propagateStep_held (ok : Distinct infos) {b : BlockInfo} (mem : b ∈ infos)
    (nonneg : 0 ≤ b.resolvedEntryStackDepth) (exit : 0 ≤ b.resolvedEntryStackDepth + b.stackHeightDiff) :
    ∀ pc ∈ b.successors, Held (propagateStep infos b.entryPC).1 pc (b.resolvedEntryStackDepth + b.stackHeightDiff) := by
  have first := (Kept.modify (f := fun i =>
    { i with resolvedExitStackDepth := b.resolvedEntryStackDepth + b.stackHeightDiff })
    (fun _ => ⟨rfl, rfl, rfl⟩) infos b.entryPC).refined
  intro pc succ
  rw [propagateStep]
  split
  · next missing => exact absurd rfl (entryPC_ne_of_find? missing mem)
  · next info found =>
    obtain ⟨mem', entry⟩ := find?_mem found
    obtain rfl := ok.eq mem' mem entry
    rw [if_neg (Int.not_lt.mpr nonneg)]
    exact foldl_enterAt_held exit info.successors (_, []) (first.distinct ok) pc succ

theorem propagateStep_resolved {pc : Nat} {workList : List Nat} (h : Resolved infos (pc :: workList)) :
    Resolved (propagateStep infos pc).1 (workList ++ (propagateStep infos pc).2) := by
  have refined := propagateStep_refined h.distinct pc
  refine .of_refined refined h.distinct h.closed fun b hb nonneg done exit succ isSucc => ?_
  by_cases here : b.entryPC = pc
  · have handed := propagateStep_held h.distinct hb nonneg exit succ isSucc
    rwa [here] at handed
  · refine refined.held exit (h.follows b hb nonneg ?_ exit succ isSucc)
    rw [List.mem_cons, not_or]
    exact ⟨here, done⟩

theorem propagateEntryDepths_resolved (fuel : Nat) {workList : List Nat} (h : Resolved infos workList)
    (eq : propagateEntryDepths fuel infos workList = some infos') :
    Resolved infos' [] ∧ ∃ new, Refined infos infos' new := by
  induction fuel generalizing infos workList with
  | zero =>
    cases workList with
    | nil =>
      cases eq
      exact ⟨h, [], .refl _⟩
    | cons => cases eq
  | succ fuel ih =>
    cases workList with
    | nil =>
      cases eq
      exact ⟨h, [], .refl _⟩
    | cons pc workList =>
      obtain ⟨resolved, new, refined⟩ := ih (propagateStep_resolved h) eq
      exact ⟨resolved, _, (propagateStep_refined h.distinct pc).trans refined⟩

/-! ## The phases -/

theorem linkPredecessors_kept (infos : List BlockInfo) : Kept infos (linkPredecessors infos) := by
  have link (source : Nat) (succs : List Nat) (infos : List BlockInfo) :
      Kept infos (succs.foldl (fun linked succ => modify linked succ fun i =>
        { i with predecessors := appendUnique i.predecessors source }) infos) := by
    induction succs generalizing infos with
    | nil => exact .refl infos
    | cons succ succs ih =>
      have first := Kept.modify (f := fun i =>
        { i with predecessors := appendUnique i.predecessors source })
        (fun _ => ⟨rfl, rfl, rfl⟩) infos succ
      exact first.trans (ih _)
  have all (sources linked : List BlockInfo) :
      Kept linked (sources.foldl (fun linked info => info.successors.foldl (fun linked succ =>
        modify linked succ fun i => { i with predecessors := appendUnique i.predecessors info.entryPC })
        linked) linked) := by
    induction sources generalizing linked with
    | nil => exact .refl linked
    | cons source sources ih => exact (link source.entryPC source.successors linked).trans (ih _)
  exact all infos infos

theorem markDynamicJumpTargetCandidates_kept (infos : List BlockInfo) :
    Kept infos (markDynamicJumpTargetCandidates infos) := by
  have mark (regions : List Nat) (infos : List BlockInfo) :
      Kept infos (regions.foldl markRegion infos) := by
    induction regions generalizing infos with
    | nil => exact .refl infos
    | cons region regions ih =>
      refine Kept.trans ⟨_, rfl, fun b => ?_⟩ (ih _)
      split <;> exact ⟨rfl, rfl, rfl⟩
  have cleared : Kept infos (infos.map fun info =>
      { info with
        isDynamicJumpTargetCandidate := false, hasCompatibleDynamicJumpTargetShape := false
        dynamicJumpTargetRegions := [] }) := ⟨_, rfl, fun _ => ⟨rfl, rfl, rfl⟩⟩
  rw [markDynamicJumpTargetCandidates]
  split
  · exact cleared
  · refine cleared.trans ((mark _ _).trans ⟨_, rfl, fun b => ?_⟩)
    split <;> exact ⟨rfl, rfl, rfl⟩

theorem enterRegion_extends (ok : Distinct infos) (regionEntryPC : Nat) (depth : Int) :
    Extends (infos, []) (enterRegion infos regionEntryPC depth) := by
  refine Extends.foldl (fun st pc distinct => ?_) _ (infos, []) ok
  split
  · exact .refl st
  · split
    · exact enterAt_extends depth st pc distinct
    · exact .refl st

theorem resolveDynamicJumpTargetEntryDepths_resolved {fuel : Nat} (h : Resolved infos [])
    (eq : resolveDynamicJumpTargetEntryDepths fuel infos = some infos') :
    Resolved infos' [] ∧ ∃ new, Refined infos infos' new := by
  rw [resolveDynamicJumpTargetEntryDepths] at eq
  split at eq
  · cases eq
    exact ⟨h, [], .refl _⟩
  · next unknown =>
    clear unknown
    generalize collectReachableDynamicJumpRegions infos = regions at eq
    induction regions generalizing infos with
    | nil =>
      cases eq
      exact ⟨h, [], .refl _⟩
    | cons region regions ih =>
      rw [List.foldlM_cons, Option.bind_eq_bind, Option.bind_eq_some_iff] at eq
      obtain ⟨mid, first, rest⟩ := eq
      have step : Resolved mid [] ∧ ∃ new, Refined infos mid new := by
        split at first
        · cases first
          exact ⟨h, [], .refl _⟩
        · next depth _ =>
          obtain ⟨new, pending, refined⟩ := enterRegion_extends h.distinct region depth
          have entered := h.refine refined
          rw [← pending] at entered
          obtain ⟨resolved, new', refined'⟩ := propagateEntryDepths_resolved fuel entered first
          exact ⟨resolved, _, refined.trans refined'⟩
      obtain ⟨resolved, new, refined⟩ := step
      obtain ⟨final, new', refined'⟩ := ih resolved rest
      exact ⟨final, _, refined.trans refined'⟩

theorem resolveEntryDepths_resolved {fuel entryPC : Nat} (h : Resolved infos [])
    (fresh : ∀ b ∈ infos, b.hasInconsistentEntryDepth = false ∧ b.resolvedEntryStackDepth < 0)
    (eq : resolveEntryDepths fuel entryPC infos = some infos') :
    Resolved infos' [] ∧ Held infos' entryPC 0 ∧ ∃ new, Refined infos infos' new := by
  rw [resolveEntryDepths] at eq
  split at eq
  · next missing =>
    cases eq
    exact ⟨h, fun b hb here => absurd here (entryPC_ne_of_find? missing hb), [], .refl _⟩
  · have first := Refined.enter (fun b hb (_ : b.entryPC = entryPC) => fresh b hb) 0
    obtain ⟨resolved, new, refined⟩ := propagateEntryDepths_resolved fuel (h.refine first) eq
    exact ⟨resolved, refined.held (Int.le_refl 0) (held_modify infos entryPC 0), _, first.trans refined⟩

theorem finalize_kept (infos : List BlockInfo) : Kept infos (finalize infos).blockInfos := by
  have entries : Kept infos (entryShapes infos) := ⟨_, rfl, fun _ => ⟨rfl, rfl, rfl⟩⟩
  have targets (regions : List RegionInfo) : Kept (entryShapes infos)
      (targetShapes regions (entryShapes infos)) := ⟨_, rfl, fun _ => ⟨rfl, rfl, rfl⟩⟩
  exact entries.trans ((targets _).trans ⟨_, rfl, fun _ => ⟨rfl, rfl, rfl⟩⟩)

theorem finalize_lifted {b : BlockInfo} (mem : b ∈ (finalize infos).blockInfos) (lifted : b.canLiftStack = true) :
    0 ≤ b.resolvedEntryStackDepth ∧ b.hasInconsistentEntryDepth = false := by
  obtain ⟨c, hc, rfl⟩ := List.mem_map.mp mem
  obtain ⟨d, hd, rfl⟩ := List.mem_map.mp hc
  obtain ⟨e, -, rfl⟩ := List.mem_map.mp hd
  simp only [Bool.and_eq_true, Bool.not_eq_true', decide_eq_true_eq] at lifted
  exact lifted.1.1.1.1

theorem resolved_start (tables : StackTables) (rev : Revision) (code : Bytes) :
    Resolved ((buildBlocks tables rev code).map fun body => { toBlockBody := body }) [] := by
  obtain ⟨layout, -, -⟩ := buildBlocks_laid tables rev code
  refine ⟨?_, ⟨fun b mem bad => ?_, fun b mem bad => ?_⟩, fun b mem nonneg => ?_⟩
  · rw [Distinct, List.map_map]
    exact layout.before.map _ (fun a b before => Nat.ne_of_lt before.lt)
  all_goals obtain ⟨body, -, rfl⟩ := List.mem_map.mp mem
  · cases bad
  · cases bad
  · exact absurd nonneg (show ¬ (0 : Int) ≤ -1 by decide)

theorem linked_resolved (tables : StackTables) (rev : Revision) (code : Bytes) : Resolved (linkPredecessors
        ((buildBlocks tables rev code).map fun body => { toBlockBody := body })) [] ∧
      ∀ b ∈ linkPredecessors ((buildBlocks tables rev code).map fun body => { toBlockBody := body }),
        b.hasInconsistentEntryDepth = false ∧ b.resolvedEntryStackDepth < 0 := by
  have linked := linkPredecessors_kept
    ((buildBlocks tables rev code).map fun body => ({ toBlockBody := body } : BlockInfo))
  refine ⟨(resolved_start tables rev code).refine_nil linked.refined, ?_⟩
  obtain ⟨f, eq, same⟩ := linked
  rw [eq, List.map_map, List.forall_mem_map]
  intro body _
  obtain ⟨-, depth, bad⟩ := same { toBlockBody := body }
  rw [Function.comp_apply, depth, bad]
  exact ⟨rfl, show (-1 : Int) < 0 by decide⟩

/-- **What the analysis knows**: the depths are handed on along all the edges it sees, from 0 at the
entry, and a block is lifted only if it has one. -/
theorem analyze_resolved {tables : StackTables} {rev : Revision} {code : Bytes} {fuel : Nat}
    {a : Analysis} (eq : analyze tables rev code fuel = some a) :
    a.blockInfos.map BlockInfo.toBlockBody = buildBlocks tables rev code ∧ Resolved a.blockInfos [] ∧
      Held a.blockInfos (entryBlockPC code) 0 ∧ ∀ b ∈ a.blockInfos, b.canLiftStack = true →
        0 ≤ b.resolvedEntryStackDepth ∧ b.hasInconsistentEntryDepth = false := by
  rw [analyze] at eq
  simp only [Option.bind_eq_bind, Option.bind_eq_some_iff, Option.some.injEq] at eq
  obtain ⟨depths, phase₁, targets, phase₂, rfl⟩ := eq
  have linked := (linkPredecessors_kept
    ((buildBlocks tables rev code).map fun body => ({ toBlockBody := body } : BlockInfo))).refined
  obtain ⟨resolved, fresh⟩ := linked_resolved tables rev code
  obtain ⟨resolved₁, entry₁, new₁, refined₁⟩ := resolveEntryDepths_resolved resolved fresh phase₁
  have marked := (markDynamicJumpTargetCandidates_kept depths).refined
  obtain ⟨resolved₂, new₂, refined₂⟩ :=
    resolveDynamicJumpTargetEntryDepths_resolved (resolved₁.refine_nil marked) phase₂
  have final := (finalize_kept targets).refined
  have all := linked.trans (refined₁.trans (marked.trans (refined₂.trans final)))
  refine ⟨?_, resolved₂.refine_nil final, ?_, fun b => finalize_lifted⟩
  · rw [all.bodies, List.map_map]
    exact List.map_id _
  · exact final.held (Int.le_refl 0) (refined₂.held (Int.le_refl 0) (marked.held (Int.le_refl 0) entry₁))

end Dtvm.Jit.Analyzer
