import Dtvm.Evm.Partition

/-!
# The chunk tables

`buildGasChunksSPP` writes the tables from the gas blocks. If every jump has a constant target, it first makes a
control-flow graph of the blocks and splits its critical edges by empty blocks. The tables are the same whether
or not it does (`buildGasChunksSPP_eq`), with an entry exactly where a block starts (`chunkTables_partition`). What
it computes in between (dominators, loops, `Metering`) is not read by the writing.
-/

namespace Dtvm.Cache

/-- `GasBlock`, with its edges. -/
structure GasNode extends GasBlock where
  succs : List Nat := []
  preds : List Nat := []

def isJumpOpcode (b : UInt8) : Bool := b == 0x56 || b == 0x57

def isPushOpcode (b : UInt8) : Bool := decide (0x60 ≤ b ∧ b ≤ 0x7f)

def isControlFlowTerminator (b : UInt8) : Bool := match Opcode.ofByte b with
  | .stop | .return' | .revert | .selfdestruct | .invalid | .jump => true
  | _ => false

/-- `push_back`, unless it is there. -/
def insertEdge (ids : List Nat) (id : Nat) : List Nat := if id ∈ ids then ids else ids ++ [id]

def addEdge (nodes : List GasNode) (source target : Nat) : List GasNode :=
  if nodes.length ≤ source ∨ nodes.length ≤ target then nodes
  else
    (nodes.modify source fun n => { n with succs := insertEdge n.succs target }).modify target
      fun n => { n with preds := insertEdge n.preds source }

def removeEdge (nodes : List GasNode) (source target : Nat) : List GasNode :=
  (nodes.modify source fun n => { n with succs := n.succs.filter fun id => id != target }).modify target
    fun n => { n with preds := n.preds.filter fun id => id != source }

/-- The critical edges: from a block with several successors to one with several predecessors. -/
def criticalEdges (nodes : List GasNode) : List (Nat × Nat) :=
  (List.range nodes.length).flatMap fun source => match nodes[source]? with
    | none => []
    | some n =>
      if n.succs.length ≤ 1 then []
      else (n.succs.filter fun target => match nodes[target]? with
        | none => false
        | some m => decide (1 < m.preds.length)).map fun target => (source, target)

/-- An empty block on an edge, at the end of the block that the edge leaves. -/
def splitEdge (codeSize : Nat) (nodes : List GasNode) (edge : Nat × Nat) : List GasNode :=
  match nodes[edge.1]? with
  | none => nodes
  | some n =>
    if codeSize ≤ n.stop then nodes
    else
      let new : GasNode := { start := n.stop, stop := n.stop, lastPc := n.stop }
      addEdge (addEdge (removeEdge nodes edge.1 edge.2 ++ [new]) edge.1 nodes.length) nodes.length edge.2

def splitCriticalEdges (codeSize : Nat) (nodes : List GasNode) : List GasNode :=
  (criticalEdges nodes).foldl (splitEdge codeSize) nodes

section Tables

variable (code : Bytes) (maps : DecodeMaps)

/-- `resolveConstantJumpTarget`: the target of a jump right behind a `PUSH`. -/
def resolveConstantJumpTarget (b : GasBlock) : Option Nat :=
  if isJumpOpcode b.lastOpcode = false ∨ b.prevPc = 2 ^ 32 - 1 then none
  else if isPushOpcode b.prevOpcode = false then none
  else if (b.prevPc + (Opcode.ofByte b.prevOpcode).len) % 2 ^ 32 ≠ b.lastPc then none
  else
    let value := (maps.pushValue b.prevPc).toNat
    if value / 2 ^ 64 ≠ 0 then none
    else if code.length ≤ value then none
    else if maps.jumpDest value = false then none
    else some value

def blockAtPc (nodes : List GasNode) (pc : Nat) : Option Nat := nodes.findIdx? fun n => n.start == pc

def jumpDestBlocks (nodes : List GasNode) : List Nat :=
  ((List.range code.length).filter maps.jumpDest).foldl (fun ids pc => match blockAtPc nodes pc with
    | none => ids
    | some id => insertEdge ids id) []

def addEdgeTo (nodes : List GasNode) (source pc : Nat) : List GasNode := match blockAtPc nodes pc with
  | none => nodes
  | some target => addEdge nodes source target

def addEdges (nodes : List GasNode) (id : Nat) : List GasNode := match nodes[id]? with
  | none => nodes
  | some n =>
    let nodes := if isControlFlowTerminator n.lastOpcode = false ∧ n.stop < code.length then
      addEdgeTo nodes id n.stop else nodes
    if isJumpOpcode n.lastOpcode = false then nodes
    else match resolveConstantJumpTarget code maps n.toGasBlock with
      | some dest => addEdgeTo nodes id dest
      | none => (jumpDestBlocks code maps nodes).foldl (fun nodes target => addEdge nodes id target) nodes

def buildEdges (blocks : List GasBlock) : List GasNode :=
  (List.range blocks.length).foldl (addEdges code maps) (blocks.map fun b => { toGasBlock := b })

def buildGasChunksSPP (cost : UInt8 → Nat) : List (Nat × Nat) :=
  let blocks := buildGasBlocks code cost
  let tables := List.replicate code.length (0, 0)
  let hasDynamicJump := blocks.any fun b =>
    isJumpOpcode b.lastOpcode && (resolveConstantJumpTarget code maps b).isNone
  if hasDynamicJump then
    blocks.foldl (fun tables b =>
      if b.start < code.length then tables.set b.start (b.stop, b.cost) else tables) tables
  else
    (splitCriticalEdges code.length (buildEdges code maps blocks)).foldl
      (fun tables n => writeChunk tables n.toGasBlock) tables

end Tables

/-! ## Edges do not change blocks -/

/-- Nodes with the blocks of others, and empty blocks after them. -/
def Extends (nodes nodes' : List GasNode) : Prop :=
  ∃ empty : List GasBlock, nodes'.map GasNode.toGasBlock = nodes.map GasNode.toGasBlock ++ empty ∧
    ∀ b ∈ empty, b.start = b.stop

namespace Extends

variable {nodes nodes' nodes'' : List GasNode}

theorem of_eq (h : nodes'.map GasNode.toGasBlock = nodes.map GasNode.toGasBlock) : Extends nodes nodes' :=
  ⟨[], by rw [h, List.append_nil], by simp⟩

theorem trans (h : Extends nodes nodes') (h' : Extends nodes' nodes'') : Extends nodes nodes'' := by
  obtain ⟨empty, eq, all⟩ := h
  obtain ⟨empty', eq', all'⟩ := h'
  refine ⟨empty ++ empty', by rw [eq', eq, List.append_assoc], ?_⟩
  rw [List.forall_mem_append]
  exact ⟨all, all'⟩

theorem foldl {α : Type} {step : List GasNode → α → List GasNode} (each : ∀ nodes a, Extends nodes (step nodes a))
    (as : List α) (nodes : List GasNode) : Extends nodes (as.foldl step nodes) := by
  induction as generalizing nodes with
  | nil => exact .of_eq rfl
  | cons a as ih => exact (each nodes a).trans (ih _)

theorem modify {f : GasNode → GasNode} (same : ∀ n, (f n).toGasBlock = n.toGasBlock) (nodes : List GasNode)
    (id : Nat) : Extends nodes (nodes.modify id f) := by
  refine .of_eq ?_
  induction nodes generalizing id with
  | nil => rw [List.modify_nil]
  | cons n nodes ih =>
    cases id with
    | zero =>
      rw [List.modify_zero_cons, List.map_cons, List.map_cons, same]
    | succ id => rw [List.modify_succ_cons, List.map_cons, List.map_cons, ih]

section

variable (nodes : List GasNode)

theorem succs (id : Nat) (f : List Nat → List Nat) :
    Extends nodes (nodes.modify id fun n => { n with succs := f n.succs }) :=
  modify (f := fun n => { n with succs := f n.succs }) (fun _ => rfl) nodes id

theorem preds (id : Nat) (f : List Nat → List Nat) :
    Extends nodes (nodes.modify id fun n => { n with preds := f n.preds }) :=
  modify (f := fun n => { n with preds := f n.preds }) (fun _ => rfl) nodes id

theorem addEdge (source target : Nat) : Extends nodes (addEdge nodes source target) := by
  rw [Cache.addEdge]
  split
  · exact .of_eq rfl
  · exact (succs nodes source fun ids => insertEdge ids target).trans
      (preds _ target fun ids => insertEdge ids source)

theorem removeEdge (source target : Nat) : Extends nodes (removeEdge nodes source target) :=
  (succs nodes source fun ids => ids.filter fun id => id != target).trans
    (preds _ target fun ids => ids.filter fun id => id != source)

theorem splitEdge (codeSize : Nat) (nodes : List GasNode) (edge : Nat × Nat) :
    Extends nodes (splitEdge codeSize nodes edge) := by
  rw [Cache.splitEdge]
  split
  · exact .of_eq rfl
  · split
    · exact .of_eq rfl
    · next n _ _ =>
      have new : Extends (Cache.removeEdge nodes edge.1 edge.2) (Cache.removeEdge nodes edge.1 edge.2 ++
          [{ start := n.stop, stop := n.stop, lastPc := n.stop }]) := by
        refine ⟨[{ start := n.stop, stop := n.stop, lastPc := n.stop }], List.map_append, ?_⟩
        rw [List.forall_mem_singleton]
      exact (removeEdge nodes edge.1 edge.2).trans (new.trans ((addEdge _ _ _).trans (addEdge _ _ _)))

theorem addEdgeTo (source pc : Nat) : Extends nodes (addEdgeTo nodes source pc) := by
  rw [Cache.addEdgeTo]
  split
  · exact .of_eq rfl
  · exact addEdge _ _ _

end

theorem addEdges (code : Bytes) (maps : DecodeMaps) (nodes : List GasNode) (id : Nat) :
    Extends nodes (addEdges code maps nodes id) := by
  rw [Cache.addEdges]
  split
  · exact .of_eq rfl
  · next n _ =>
    have falls : Extends nodes (if isControlFlowTerminator n.lastOpcode = false ∧ n.stop < code.length then
        Cache.addEdgeTo nodes id n.stop else nodes) := by
      split
      · exact addEdgeTo _ _ _
      · exact .of_eq rfl
    dsimp only
    split
    · exact falls
    · split
      · exact falls.trans (addEdgeTo _ _ _)
      · exact falls.trans (foldl (fun nodes target => addEdge nodes id target) _ _)

theorem splitCriticalEdges (code : Bytes) (maps : DecodeMaps) (blocks : List GasBlock) : ∃ empty : List GasBlock,
      (splitCriticalEdges code.length (buildEdges code maps blocks)).map GasNode.toGasBlock = blocks ++ empty ∧
      ∀ b ∈ empty, b.start = b.stop := by
  have edges : Extends (blocks.map fun b => { toGasBlock := b }) (buildEdges code maps blocks) :=
    foldl (addEdges code maps) _ _
  obtain ⟨empty, eq, all⟩ := edges.trans (foldl (splitEdge code.length) _ _)
  refine ⟨empty, eq.trans ?_, all⟩
  rw [List.map_map]
  exact congrArg (· ++ empty) (List.map_id blocks)

end Extends

/-! ## The tables -/

theorem foldl_writeChunk_empty {blocks : List GasBlock} (empty : ∀ b ∈ blocks, b.start = b.stop)
    (tables : List (Nat × Nat)) : blocks.foldl writeChunk tables = tables := by
  induction blocks with
  | nil => rfl
  | cons b blocks ih =>
    rw [List.forall_mem_cons] at empty
    rw [List.foldl_cons, writeChunk, if_pos empty.1, ih empty.2]

/-- **The tables do not depend on the graph.** -/
theorem buildGasChunksSPP_eq (code : Bytes) (maps : DecodeMaps) (cost : UInt8 → Nat)
    (fits : code.length + 33 ≤ 2 ^ 32) : buildGasChunksSPP code maps cost = gasChunks code cost := by
  obtain ⟨stop, -, partitioned⟩ := (buildGasBlocks_partition code cost fits).2
  rw [buildGasChunksSPP, gasChunks]
  split
  · refine List.foldl_ext _ _ _ fun tables b mem => ?_
    have part := partitioned.parts b mem
    rw [writeChunk, if_pos part.inside, if_neg (Nat.ne_of_lt part.nonempty)]
  · obtain ⟨empty, eq, all⟩ := Extends.splitCriticalEdges code maps (buildGasBlocks code cost)
    rw [← List.foldl_map (f := GasNode.toGasBlock) (g := writeChunk), eq, List.foldl_append,
      foldl_writeChunk_empty all]

variable {blocks : List GasBlock} {pc stop : Nat} (h : Contiguous pc blocks stop)

include h

theorem Contiguous.le (grow : ∀ b ∈ blocks, b.start < b.stop) : ∀ b ∈ blocks, pc ≤ b.start := by
  induction blocks generalizing pc with
  | nil => simp
  | cons a blocks ih =>
    rw [List.forall_mem_cons] at grow ⊢
    obtain ⟨start, rest⟩ := h
    refine ⟨Nat.le_of_eq start.symm, fun b mem => ?_⟩
    have := ih rest grow.2 b mem
    omega

theorem foldl_writeChunk_getD (grow : ∀ b ∈ blocks, b.start < b.stop) (tables : List (Nat × Nat))
    (inside : ∀ b ∈ blocks, b.start < tables.length) :
    (∀ b ∈ blocks, (blocks.foldl writeChunk tables).getD b.start (0, 0) = (b.stop, b.cost)) ∧
      ∀ p, (∀ b ∈ blocks, b.start ≠ p) → (blocks.foldl writeChunk tables).getD p (0, 0) = tables.getD p (0, 0) := by
  induction blocks generalizing pc tables with
  | nil => exact ⟨by simp, fun _ _ => rfl⟩
  | cons a blocks ih =>
    obtain ⟨start, rest⟩ := h
    rw [List.forall_mem_cons] at grow inside
    have written : writeChunk tables a = tables.set a.start (a.stop, a.cost) :=
      if_neg (Nat.ne_of_lt grow.1)
    have later := rest.le grow.2
    obtain ⟨own, others⟩ := ih rest grow.2 (writeChunk tables a) fun b mem => by
      rw [written, List.length_set]
      exact inside.2 b mem
    rw [List.foldl_cons, List.forall_mem_cons]
    refine ⟨⟨?_, own⟩, fun p absent => ?_⟩
    · rw [others a.start fun b mem same => ?_, written, List.getD_eq_getElem?_getD, List.getElem?_set_self inside.1]
      · rfl
      · have := later b mem
        omega
    · rw [List.forall_mem_cons] at absent
      rw [others p absent.2, written, List.getD_eq_getElem?_getD, List.getElem?_set_ne absent.1,
        List.getD_eq_getElem?_getD]

end Dtvm.Cache

namespace Dtvm

open Cache

/-- **The chunk tables are the partition of the code into gas blocks.** -/
theorem chunkTables_partition (t : InstructionTables) (rev : Revision) (code : Bytecode) :
    (buildGasBlocks code.bytes (t.cost64 rev)).flatMap (GasBlock.opcodes code.bytes) = instructions code.bytes ∧
      (∃ stop, code.bytes.length ≤ stop ∧ Contiguous 0 (buildGasBlocks code.bytes (t.cost64 rev)) stop) ∧
      (∀ b ∈ buildGasBlocks code.bytes (t.cost64 rev), IsPart code.bytes (t.cost64 rev) b) ∧
      (∀ pc, (buildBytecodeCache t rev code).gasChunkEnd pc =
          ((buildGasChunksSPP code.bytes (buildBytecodeCache t rev code).maps (t.cost64 rev)).getD pc (0, 0)).1 ∧
        (buildBytecodeCache t rev code).gasChunkCost pc =
          ((buildGasChunksSPP code.bytes (buildBytecodeCache t rev code).maps (t.cost64 rev)).getD pc (0, 0)).2) ∧
      (∀ pc, (buildBytecodeCache t rev code).gasChunkEnd pc > pc ↔
        ∃ b ∈ buildGasBlocks code.bytes (t.cost64 rev), b.start = pc) ∧ ∀ b ∈ buildGasBlocks code.bytes (t.cost64 rev),
        (buildBytecodeCache t rev code).gasChunkEnd b.start = b.stop ∧
          (buildBytecodeCache t rev code).gasChunkCost b.start =
            baseCosts code.bytes (t.cost64 rev) (b.opcodes code.bytes) % 2 ^ 64 := by
  obtain ⟨all, stop, past, h⟩ := buildGasBlocks_partition code.bytes (t.cost64 rev) code.fits
  obtain ⟨own, others⟩ := foldl_writeChunk_getD h.contiguous (fun b mem => (h.parts b mem).nonempty)
    (List.replicate code.bytes.length (0, 0)) fun b mem => by
      rw [List.length_replicate]
      exact (h.parts b mem).inside
  refine ⟨all, ⟨stop, past, h.contiguous⟩, h.parts, fun pc => ?_, fun pc => ⟨fun entry => ?_, ?_⟩, fun b mem => ?_⟩
  · rw [buildGasChunksSPP_eq _ _ _ code.fits]
    exact ⟨rfl, rfl⟩
  · by_contra absent
    have entry : pc < ((gasChunks code.bytes (t.cost64 rev)).getD pc (0, 0)).1 := entry
    rw [gasChunks, others pc fun b mem same => absent ⟨b, mem, same⟩, List.getD_eq_getElem?_getD,
      List.getElem?_replicate] at entry
    split at entry <;> exact Nat.not_lt_zero _ entry
  · rintro ⟨b, mem, rfl⟩
    show b.start < ((gasChunks code.bytes (t.cost64 rev)).getD b.start (0, 0)).1
    rw [gasChunks, own b mem]
    exact (h.parts b mem).nonempty
  · show ((gasChunks code.bytes (t.cost64 rev)).getD b.start (0, 0)).1 = _ ∧
      ((gasChunks code.bytes (t.cost64 rev)).getD b.start (0, 0)).2 = _
    rw [gasChunks, own b mem]
    exact ⟨rfl, (h.parts b mem).cost⟩

end Dtvm
