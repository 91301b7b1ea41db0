import Mathlib.Data.BitVec
import Dtvm.Effect.Program

/-!
# The values of the EVM and of its host interface

The EVMC interface is not part of the sources: its enumerations are written here in its order, and its functions
become the requests of `HostReq`, each with the type of its answer.

* A word is `BitVec 256`, an address `BitVec 160`; a message holds its input itself and not a pointer to it.
* Gas is a natural number: every charge is checked before it is subtracted (`Dtvm.Evm.GasWord`).
* Refunds, and the gas a host answers to be left, are signed, as in the interface.
-/

namespace Dtvm

abbrev Word := BitVec 256

abbrev Address := BitVec 160

abbrev Bytes := List UInt8

/-- `intx::be::load`: the bytes read as one big-endian number. -/
def Word.load (bytes : Bytes) : Word :=
  bytes.foldl (fun acc b => (acc <<< 8) ||| BitVec.ofNat 256 b.toNat) 0

/-- `intx::be::store`: the 32 bytes of a word, the most significant one first. -/
def Word.store (w : Word) : Bytes :=
  (List.range 32).map fun i => UInt8.ofNat (w.toNat / 256 ^ (31 - i))

/-- `intx::be::trunc<evmc::address>`: the low 20 bytes. -/
def Word.toAddress (w : Word) : Address := w.setWidth 160

/-- `intx::be::load` of an address. -/
def Address.toWord (a : Address) : Word := a.setWidth 256

inductive Revision where
  | frontier | homestead | tangerineWhistle | spuriousDragon | byzantium | constantinople
  | petersburg | istanbul | berlin | london | paris | shanghai | cancun | prague | osaka
  | experimental
deriving DecidableEq, Repr

namespace Revision

/-- The number of a revision in the interface's enumeration, by which revisions are compared. -/
def num : Revision → Nat
  | frontier => 0 | homestead => 1 | tangerineWhistle => 2 | spuriousDragon => 3 | byzantium => 4
  | constantinople => 5 | petersburg => 6 | istanbul => 7 | berlin => 8 | london => 9
  | paris => 10 | shanghai => 11 | cancun => 12 | prague => 13 | osaka => 14 | experimental => 15

instance : LE Revision := ⟨fun a b => a.num ≤ b.num⟩

instance : LT Revision := ⟨fun a b => a.num < b.num⟩

instance (a b : Revision) : Decidable (a ≤ b) := inferInstanceAs (Decidable (a.num ≤ b.num))

instance (a b : Revision) : Decidable (a < b) := inferInstanceAs (Decidable (a.num < b.num))

theorem not_lt {a b : Revision} : ¬ a < b ↔ b ≤ a := Nat.not_lt

/-- `DEFAULT_REVISION`. -/
def default : Revision := cancun

end Revision

/-- The status codes of `evmc_status_code` that the interpreter sets or a host answers. -/
inductive Status where
  | success | failure | revert | outOfGas | invalidInstruction | undefinedInstruction
  | stackOverflow | stackUnderflow | badJumpDestination | invalidMemoryAccess
  | callDepthExceeded | staticModeViolation | insufficientBalance | internalError
deriving DecidableEq, Repr

/-- Every status but `success` and `revert` gives up the frame's gas. -/
@[reducible] def Status.isFailure : Status → Bool
  | .success | .revert => false
  | _ => true

inductive CallKind where
  | call | delegatecall | callcode | create | create2
deriving DecidableEq, Repr

/-- `EVMC_STATIC`. -/
def evmcStatic : BitVec 32 := 1

/-- `EVMC_DELEGATED`. -/
def evmcDelegated : BitVec 32 := 2

/-- `evmc_message`. The fields `code` and `code_size` are left out: the interpreter and the
compiled code's helpers set them to null and zero and never read them. -/
structure Message where
  kind : CallKind
  flags : BitVec 32
  depth : Nat
  gas : Nat
  recipient : Address
  sender : Address
  input : Bytes
  value : Word
  salt : Word
  codeAddress : Address
deriving DecidableEq, Repr

/-- `Frame->isStaticMode()`. -/
def Message.isStaticMode (m : Message) : Bool := m.flags &&& evmcStatic != 0

/-- `evmc_result`, as a host answers it. -/
structure CallResult where
  status : Status
  gasLeft : Int
  gasRefund : Int
  output : Bytes
  createAddress : Address
deriving DecidableEq, Repr

/-- `evmc_tx_context`. The interface's 64-bit signed fields are kept as 64-bit vectors. -/
structure TxContext where
  gasPrice : Word
  origin : Address
  coinbase : Address
  number : BitVec 64
  timestamp : BitVec 64
  gasLimit : BitVec 64
  prevRandao : Word
  chainId : Word
  baseFee : Word
  blobBaseFee : Word
  blobHashes : List Word
deriving DecidableEq, Repr

/-- `evmc_tx_context{}`. -/
def TxContext.zero : TxContext := ⟨0, 0, 0, 0, 0, 0, 0, 0, 0, 0, []⟩

inductive AccessStatus where
  | cold | warm
deriving DecidableEq, Repr

inductive StorageStatus where
  | assigned | added | deleted | modified | deletedAdded | modifiedDeleted | deletedRestored
  | addedDeleted | modifiedRestored
deriving DecidableEq, Repr

inductive HostReq where
  | accountExists (a : Address)
  | getStorage (a : Address) (key : Word)
  | setStorage (a : Address) (key value : Word)
  | getBalance (a : Address)
  | getCodeSize (a : Address)
  | getCodeHash (a : Address)
  | copyCode (a : Address) (offset size : Nat)
  | selfdestruct (a beneficiary : Address)
  | call (m : Message)
  | getTxContext
  | getBlockHash (number : Int)
  | emitLog (a : Address) (data : Bytes) (topics : List Word)
  | accessAccount (a : Address)
  | accessStorage (a : Address) (key : Word)
  | getTransientStorage (a : Address) (key : Word)
  | setTransientStorage (a : Address) (key value : Word)
deriving DecidableEq, Repr

/-- What the host answers. `copyCode` answers the bytes it copied. -/
@[reducible] def HostReq.Ans : HostReq → Type
  | .accountExists _ => Bool
  | .getStorage _ _ => Word
  | .setStorage _ _ _ => StorageStatus
  | .getBalance _ => Word
  | .getCodeSize _ => Nat
  | .getCodeHash _ => Word
  | .copyCode _ _ _ => Bytes
  | .selfdestruct _ _ => Bool
  | .call _ => CallResult
  | .getTxContext => TxContext
  | .getBlockHash _ => Word
  | .emitLog _ _ _ => Unit
  | .accessAccount _ => AccessStatus
  | .accessStorage _ _ => AccessStatus
  | .getTransientStorage _ _ => Word
  | .setTransientStorage _ _ _ => Unit

structure HostEvent where
  req : HostReq
  ans : req.Ans

/-- A host's behaviour: what it answers to a request, given all the calls made to it before. -/
abbrev Host := List HostEvent → (r : HostReq) → r.Ans

end Dtvm
