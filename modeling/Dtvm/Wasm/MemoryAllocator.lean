import Dtvm.Effect.System
import Mathlib.Data.Finset.Card
import Mathlib.Data.Finset.Range
import Mathlib.Logic.Function.Basic

/-!
# Linear memories in shared buckets

`WasmMemoryAllocator`, for the instances of one module. A bucket is a mapping of ten slots of one size, and
each instance has its linear memory in a slot, with room to grow. The bytes of a bucket are accessible or
not. When a memory is allocated, or its instance made active, the other slots of the bucket are to be closed:
`ItemsUsedSizes` says how much of each slot there is to close.

An address is a bucket and an offset in it. What is allocated outside of buckets keeps no address here.
-/

namespace Dtvm.Wasm

open Effect

/-- `WasmMemoryAllocatorBucketDuplicates`. -/
def duplicates : Nat := 10

/-- What an allocator is made with. `initFile` says that the file with the initial memory exists, so that
buckets can be mapped from it. -/
structure AllocatorConfig where
  useMmap : Bool
  initFile : Bool
  mmapMemoryBucketGrowMaxSize : Nat
  pos : 0 < mmapMemoryBucketGrowMaxSize

/-- `MmapBucketInstance`, with its entry of `MmapBucketsFreedCount` and which bytes are accessible. -/
structure MmapBucketInstance where
  itemsUsedSizes : Nat → Nat
  nextOffset : Nat
  freedCount : Nat
  accessible : Nat → Bool

inductive WasmMemoryData where
  | noData
  | malloc (size : Nat)
  | singleMmap (size : Nat)
  | bucketMmap (bucket offset size : Nat)
deriving DecidableEq, Repr

def WasmMemoryData.memorySize : WasmMemoryData → Nat
  | .noData => 0
  | .malloc size | .singleMmap size | .bucketMmap _ _ size => size

/-- The tables of a `WasmMemoryAllocator`. Buckets are numbered as they are mapped. -/
structure WasmMemoryAllocator where
  activeBuckets : Nat → Option MmapBucketInstance
  mapped : Nat
  bucketInstanceForAllocate : Option Nat

/-- `mprotect`, which sets the protection of exactly the bytes it is given. -/
def mprotect (start size : Nat) (on : Bool) (accessible : Nat → Bool) : Nat → Bool := fun x =>
  if start ≤ x ∧ x < start + size then on else accessible x

namespace WasmMemoryAllocator

variable (cfg : AllocatorConfig)

def checkWasmMemoryCanUseMmap : Bool := cfg.useMmap && cfg.initFile

def put (a : WasmMemoryAllocator) (b : Nat) (bucket : MmapBucketInstance) : WasmMemoryAllocator :=
  { a with activeBuckets := Function.update a.activeBuckets b (some bucket) }

/-- `getOrCreateMmapSpace`: a bucket, the offset of a slot in it and the tables then. Only the first slot of
a bucket is recorded as used. -/
def getOrCreateMmapSpace (initLinearMemorySize : Nat) (a : WasmMemoryAllocator) :
    Option (Nat × Nat × WasmMemoryAllocator) :=
  match a.bucketInstanceForAllocate with
  | none =>
    let bucket : MmapBucketInstance :=
      { itemsUsedSizes := fun i => if i = 0 then initLinearMemorySize else 0
        nextOffset := cfg.mmapMemoryBucketGrowMaxSize
        freedCount := 0
        accessible := fun _ => false }
    some (a.mapped, 0, { a.put a.mapped bucket with
      mapped := a.mapped + 1
      bucketInstanceForAllocate := some a.mapped })
  | some b => do
    let bucket ← a.activeBuckets b
    let nextOffset := bucket.nextOffset + cfg.mmapMemoryBucketGrowMaxSize
    let full := nextOffset ≥ cfg.mmapMemoryBucketGrowMaxSize * duplicates
    some (b, bucket.nextOffset, { a.put b { bucket with nextOffset := nextOffset } with
      bucketInstanceForAllocate := if full then none else some b })

def protectItems (bucket : MmapBucketInstance) : Nat → Bool :=
  (List.range duplicates).foldl (fun accessible i =>
    if bucket.itemsUsedSizes i = 0 then accessible
    else mprotect (i * cfg.mmapMemoryBucketGrowMaxSize) (bucket.itemsUsedSizes i) false accessible)
    bucket.accessible

def mprotectReadWriteWasmMemoryData (data : WasmMemoryData) (unprotectBucket : Bool)
    (a : WasmMemoryAllocator) : Option WasmMemoryAllocator :=
  match data with
  | .bucketMmap b offset size => do
    let bucket ← a.activeBuckets b
    let closed := if unprotectBucket then protectItems cfg bucket else bucket.accessible
    some (a.put b { bucket with accessible := mprotect offset size true closed })
  | _ => some a

def allocateNonBucketMemory (memorySize : Nat) : WasmMemoryData :=
  if cfg.useMmap then .singleMmap memorySize else .malloc memorySize

def allocInitWasmMemory (memorySize : Nat) (thisInstanceUseMmap : Bool) (a : WasmMemoryAllocator) :
    Option (WasmMemoryData × WasmMemoryAllocator) :=
  if memorySize = 0 then some (.noData, a)
  else if thisInstanceUseMmap && checkWasmMemoryCanUseMmap cfg then do
    let (b, offset, a) ← a.getOrCreateMmapSpace cfg memorySize
    let a ← a.mprotectReadWriteWasmMemoryData cfg (.bucketMmap b offset memorySize) true
    some (.bucketMmap b offset memorySize, a)
  else some (allocateNonBucketMemory cfg memorySize, a)

/-- `internalFreeWasmMemory`. A slot is not used again, and a bucket is unmapped with its last slot. -/
def internalFreeWasmMemory (data : WasmMemoryData) (a : WasmMemoryAllocator) :
    Option WasmMemoryAllocator :=
  match data with
  | .bucketMmap b _ _ => do
    let bucket ← a.activeBuckets b
    if bucket.freedCount + 1 ≥ duplicates then
      some { a with activeBuckets := Function.update a.activeBuckets b none }
    else some (a.put b { bucket with freedCount := bucket.freedCount + 1 })
  | _ => some a

def enlargeWasmMemory (oldMemoryData : WasmMemoryData) (newMemorySize : Nat) (a : WasmMemoryAllocator) :
    Option (WasmMemoryData × WasmMemoryAllocator) :=
  match oldMemoryData with
  | .bucketMmap b offset size =>
    if newMemorySize ≤ cfg.mmapMemoryBucketGrowMaxSize then do
      let bucket ← a.activeBuckets b
      let indexInBucket := offset / cfg.mmapMemoryBucketGrowMaxSize
      let a := a.put b { bucket with
        itemsUsedSizes := Function.update bucket.itemsUsedSizes indexInBucket newMemorySize }
      let a ← a.mprotectReadWriteWasmMemoryData cfg (.bucketMmap b offset newMemorySize) false
      some (.bucketMmap b offset newMemorySize, a)
    else do
      let a ← a.internalFreeWasmMemory (.bucketMmap b offset size)
      some (allocateNonBucketMemory cfg newMemorySize, a)
  | _ => some (allocateNonBucketMemory cfg newMemorySize, a)

end WasmMemoryAllocator

/-! ## Histories -/

inductive MemoryCall where
  /-- `allocInitWasmMemory`, at instantiation. -/
  | alloc (inst memorySize : Nat) (useMmap : Bool)
  /-- `enlargeWasmMemory`, from `growLinearMemory`. -/
  | enlarge (inst newMemorySize : Nat)
  /-- `freeWasmMemory`. -/
  | free (inst : Nat)
  /-- `protectMemory`: `mprotectReadWriteWasmMemoryData` with `UnprotectBucket` set. -/
  | protect (inst : Nat)
deriving DecidableEq, Repr

structure MemoryState where
  allocator : WasmMemoryAllocator
  memory : Nat → Option WasmMemoryData

namespace MemoryState

variable (cfg : AllocatorConfig)

def set (s : MemoryState) (inst : Nat) (data : Option WasmMemoryData) (a : WasmMemoryAllocator) :
    MemoryState := ⟨a, Function.update s.memory inst data⟩

/-- A call of an instance. An instance has one memory at a time, which does not shrink, and buckets are
used for modules only whose initial memory fits a slot. -/
def step (s : MemoryState) : MemoryCall → Option MemoryState
  | .alloc i size useMmap =>
    if s.memory i ≠ none ∨ size > cfg.mmapMemoryBucketGrowMaxSize then none
    else do
      let (data, a) ← s.allocator.allocInitWasmMemory cfg size useMmap
      some (s.set i (some data) a)
  | .enlarge i size => do
    let old ← s.memory i
    if size < old.memorySize then none
    else do
      let (data, a) ← s.allocator.enlargeWasmMemory cfg old size
      some (s.set i (some data) a)
  | .free i => do
    let old ← s.memory i
    let a ← s.allocator.internalFreeWasmMemory old
    some (s.set i none a)
  | .protect i => do
    let data ← s.memory i
    let a ← s.allocator.mprotectReadWriteWasmMemoryData cfg data true
    some { s with allocator := a }

end MemoryState

def memorySystem (cfg : AllocatorConfig) : System MemoryState MemoryCall where
  init := ⟨⟨fun _ => none, 0, none⟩, fun _ => none⟩
  step := MemoryState.step cfg

end Dtvm.Wasm
