import Dtvm.Evm.Calls

/-!
# Opcodes and their execution

The byte values of the opcodes, as the computed-goto table of `interpreter.cpp` lists them, and
`Opcode.exec`: the program each one runs once its base gas is paid. The opcodes the interpreter
inlines (the arithmetic of the fast path, the stack opcodes, the jumps) have the same effect
there as in the handler templates of `opcode_handlers.h`, so one program stands for both texts.
-/

namespace Dtvm

open Effect

/-- The opcodes the interpreter knows, by the byte's place in its dispatch table. -/
inductive Opcode where
  | stop | add | mul | sub | div | sdiv | mod | smod | addmod | mulmod | exp | signextend
  | lt | gt | slt | sgt | eq | iszero | and | or | xor | not | byte | shl | shr | sar | clz
  | keccak256
  | address | balance | origin | caller | callvalue | calldataload | calldatasize | calldatacopy
  | codesize | codecopy | gasprice | extcodesize | extcodecopy | returndatasize | returndatacopy
  | extcodehash
  | blockhash | coinbase | timestamp | number | prevrandao | gaslimit | chainid | selfbalance
  | basefee | blobhash | blobbasefee
  | pop | mload | mstore | mstore8 | sload | sstore | jump | jumpi | pc | msize | gas | jumpdest
  | tload | tstore | mcopy | push0
  | push (n : Nat) | dup (n : Nat) | swap (n : Nat) | log (n : Nat)
  | create (op : CreateOp) | call (op : CallOp)
  | return' | revert | invalid | selfdestruct
  | unknown
deriving DecidableEq, Repr

namespace Opcode

def ofByte (b : UInt8) : Opcode :=
  let n := b.toNat
  if 0x60 ≤ n ∧ n ≤ 0x7f then .push (n - 0x60 + 1)
  else if 0x80 ≤ n ∧ n ≤ 0x8f then .dup (n - 0x80 + 1)
  else if 0x90 ≤ n ∧ n ≤ 0x9f then .swap (n - 0x90 + 1)
  else if 0xa0 ≤ n ∧ n ≤ 0xa4 then .log (n - 0xa0)
  else match n with
    | 0x00 => .stop | 0x01 => .add | 0x02 => .mul | 0x03 => .sub | 0x04 => .div | 0x05 => .sdiv
    | 0x06 => .mod | 0x07 => .smod | 0x08 => .addmod | 0x09 => .mulmod | 0x0a => .exp
    | 0x0b => .signextend
    | 0x10 => .lt | 0x11 => .gt | 0x12 => .slt | 0x13 => .sgt | 0x14 => .eq | 0x15 => .iszero
    | 0x16 => .and | 0x17 => .or | 0x18 => .xor | 0x19 => .not | 0x1a => .byte | 0x1b => .shl
    | 0x1c => .shr | 0x1d => .sar | 0x1e => .clz
    | 0x20 => .keccak256
    | 0x30 => .address | 0x31 => .balance | 0x32 => .origin | 0x33 => .caller
    | 0x34 => .callvalue | 0x35 => .calldataload | 0x36 => .calldatasize | 0x37 => .calldatacopy
    | 0x38 => .codesize | 0x39 => .codecopy | 0x3a => .gasprice | 0x3b => .extcodesize
    | 0x3c => .extcodecopy | 0x3d => .returndatasize | 0x3e => .returndatacopy
    | 0x3f => .extcodehash
    | 0x40 => .blockhash | 0x41 => .coinbase | 0x42 => .timestamp | 0x43 => .number
    | 0x44 => .prevrandao | 0x45 => .gaslimit | 0x46 => .chainid | 0x47 => .selfbalance
    | 0x48 => .basefee | 0x49 => .blobhash | 0x4a => .blobbasefee
    | 0x50 => .pop | 0x51 => .mload | 0x52 => .mstore | 0x53 => .mstore8 | 0x54 => .sload
    | 0x55 => .sstore | 0x56 => .jump | 0x57 => .jumpi | 0x58 => .pc | 0x59 => .msize
    | 0x5a => .gas | 0x5b => .jumpdest | 0x5c => .tload | 0x5d => .tstore | 0x5e => .mcopy
    | 0x5f => .push0
    | 0xf0 => .create .create | 0xf1 => .call .call | 0xf2 => .call .callcode
    | 0xf3 => .return' | 0xf4 => .call .delegatecall | 0xf5 => .create .create2
    | 0xfa => .call .staticcall | 0xfd => .revert | 0xfe => .invalid | 0xff => .selfdestruct
    | _ => .unknown

/-- `opcodeLen`: the bytes an opcode takes, its immediate included. -/
def len : Opcode → Nat
  | .push n => n + 1
  | _ => 1

def isGasChunkTerminator : Opcode → Bool
  | .stop | .return' | .revert | .selfdestruct | .invalid | .jump | .jumpi | .gas | .sstore
  | .create _ | .call _ => true
  | _ => false

theorem len_pos (o : Opcode) : 0 < o.len := by
  cases o <;> simp [len]

end Opcode

/-- Where control goes after an opcode: on to the next one, or to the `Pc` a jump has set. -/
inductive Flow where
  | next
  | jump
deriving DecidableEq, Repr

/-- The opcode decoder's tables that execution reads: `JumpDestMap` and `PushValueMap`. -/
structure DecodeMaps where
  jumpDest : Nat → Bool
  pushValue : Nat → Word

namespace Handler

open Code

/-- The destination check and jump of `OP_JUMP` and of a taken `OP_JUMPI`. -/
@[reducible] def jumpTo (env : Env) (maps : DecodeMaps) (target : Word) : Code Flow := do
  let dest := uint256ToUint64 target
  if dest ≥ env.code.length then fail .badJumpDestination
  else if maps.jumpDest dest = false then fail .badJumpDestination
  else do
    setPc dest
    pure .jump

@[reducible] def jump (env : Env) (maps : DecodeMaps) : Code Flow := do
  let x ← operands 1
  jumpTo env maps (x 0)

@[reducible] def jumpi (env : Env) (maps : DecodeMaps) : Code Flow := do
  let x ← operands 2
  if x 1 = 0 then pure .next else jumpTo env maps (x 0)

def next (p : Code Unit) : Code Flow := do
  p
  pure .next

/-- `executePushNOpcodeNoGas`: the immediate was decoded when the code was loaded. -/
@[reducible] def pushN (maps : DecodeMaps) : Code Unit := do
  let here ← pc
  pushChecked (maps.pushValue here)

end Handler

open Handler in
def Opcode.exec (env : Env) (maps : DecodeMaps) : Opcode → Code Flow
  | .stop => next Handler.stop
  | .add => next (binaryOp (· + ·))
  | .mul => next (binaryOp (· * ·))
  | .sub => next (binaryOp (· - ·))
  | .div => next (binaryOp divOp)
  | .sdiv => next (binaryOp sdivOp)
  | .mod => next (binaryOp modOp)
  | .smod => next (binaryOp smodOp)
  | .addmod => next (ternaryOp addmodOp)
  | .mulmod => next (ternaryOp mulmodOp)
  | .exp => next (Handler.exp env)
  | .signextend => next (binaryOp signExtendOp)
  | .lt => next (binaryOp fun a b => ofBool (a.ult b))
  | .gt => next (binaryOp fun a b => ofBool (b.ult a))
  | .slt => next (binaryOp fun a b => ofBool (a.slt b))
  | .sgt => next (binaryOp fun a b => ofBool (b.slt a))
  | .eq => next (binaryOp fun a b => ofBool (a == b))
  | .iszero => next (unaryOp fun a => ofBool (a == 0))
  | .and => next (binaryOp (· &&& ·))
  | .or => next (binaryOp (· ||| ·))
  | .xor => next (binaryOp (· ^^^ ·))
  | .not => next (unaryOp (~~~ ·))
  | .byte => next (binaryOp byteOp)
  | .shl => next (binaryOp shlOp)
  | .shr => next (binaryOp shrOp)
  | .sar => next (binaryOp sarOp)
  | .clz => next (unaryOp BitVec.clz)
  | .keccak256 => next (Handler.keccak256 env)
  | .address => next (Code.pushChecked env.msg.recipient.toWord)
  | .balance => next (Handler.balance env)
  | .origin => next (pushTx (·.origin.toWord))
  | .caller => next (Code.pushChecked env.msg.sender.toWord)
  | .callvalue => next (Code.pushChecked env.msg.value)
  | .calldataload => next (callDataLoad env)
  | .calldatasize => next (Code.pushChecked (BitVec.ofNat 256 env.msg.input.length))
  | .calldatacopy => next (callDataCopy env)
  | .codesize => next (Code.pushChecked (BitVec.ofNat 256 env.code.length))
  | .codecopy => next (codeCopy env)
  | .gasprice => next (pushTx (·.gasPrice))
  | .extcodesize => next (extCodeSize env)
  | .extcodecopy => next (extCodeCopy env)
  | .returndatasize => next returnDataSize
  | .returndatacopy => next returnDataCopy
  | .extcodehash => next (extCodeHash env)
  | .blockhash => next blockHash
  | .coinbase => next (pushTx (·.coinbase.toWord))
  | .timestamp => next (pushTx (·.timestamp.setWidth 256))
  | .number => next (pushTx (·.number.setWidth 256))
  | .prevrandao => next (pushTx (·.prevRandao))
  | .gaslimit => next (pushTx (·.gasLimit.setWidth 256))
  | .chainid => next (pushTx (·.chainId))
  | .selfbalance => next (selfBalance env)
  | .basefee => next (pushTx (·.baseFee))
  | .blobhash => next blobHash
  | .blobbasefee => next (pushTx (·.blobBaseFee))
  | .pop => next (do let _ ← Code.operands 1)
  | .mload => next Handler.mload
  | .mstore => next Handler.mstore
  | .mstore8 => next Handler.mstore8
  | .sload => next (Handler.sload env)
  | .sstore => next (Handler.sstore env)
  | .pc => next pcOp
  | .msize => next Handler.msize
  | .gas => next gasOp
  | .tload => next (Handler.tload env)
  | .tstore => next (Handler.tstore env)
  | .mcopy => next Handler.mcopy
  | .push0 => next (Code.pushChecked 0)
  | .push _ => next (pushN maps)
  | .dup n => next (Code.dup (n - 1))
  | .swap n => next (Code.swap n)
  | .log n => next (Handler.log env n)
  | .create op => next (Handler.create env op)
  | .call op => next (Handler.call env op)
  | .return' => next Handler.return'
  | .revert => next (Handler.revert env)
  | .selfdestruct => next (selfDestruct env)
  | .invalid => next (Code.fail .invalidInstruction)
  | .jumpdest => next (pure ())
  | .jump => Handler.jump env maps
  | .jumpi => Handler.jumpi env maps
  | .unknown => Code.fail .invalidInstruction

end Dtvm
