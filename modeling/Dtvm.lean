import Dtvm.Evm.Bookkeeping
import Dtvm.Vm.Capacity
import Dtvm.Vm.Isolation
import Dtvm.Jit.CreateAgreement
import Dtvm.Evm.GasWord
import Dtvm.Jit.Fallback
import Dtvm.Jit.CanonicalDepths
import Dtvm.Jit.Decoders
import Dtvm.Jit.StackLifter
import Dtvm.Jit.LinearPrecheck
import Dtvm.Jit.HelperAgreement
import Dtvm.Evm.MemoryBounds
import Dtvm.Jit.Expansion
import Dtvm.Wasm.MemoryIsolation
import Dtvm.Wasm.Boundaries
import Dtvm.Wasm.LebSpec
import Dtvm.Jit.MirAddMod
import Dtvm.Wasm.HostImports
import Dtvm.Wasm.CompiledAccess
import Dtvm.Wasm.Utf8
import Dtvm.Evm.ReverseTopo
import Dtvm.Evm.Rlp
