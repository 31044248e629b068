import SelfPropelled.Transparency
import SelfPropelled.IndirectCall
import SelfPropelled.IntervalMapping
import SelfPropelled.PayloadThreads
import SelfPropelled.CallIsolation
import SelfPropelled.ContextRoundTrip
import SelfPropelled.PcDetection
import SelfPropelled.FarRelocation
import SelfPropelled.ExecChain
import SelfPropelled.ParserCache
import SelfPropelled.BlobOverrun
import SelfPropelled.CallReach
import SelfPropelled.SpringSearch
import SelfPropelled.FreeIntervals
import SelfPropelled.IntervalReach
import SelfPropelled.SavedRegisters
import SelfPropelled.CallArguments
import SelfPropelled.CallTarget
import SelfPropelled.Propagation
import SelfPropelled.PatchOnce
import SelfPropelled.ReturnTrap
import SelfPropelled.BlockPatch
import SelfPropelled.BufferRelease
import SelfPropelled.SavedCode
import SelfPropelled.TrapDispatch
import SelfPropelled.LibraryLoading
import SelfPropelled.LibraryAdmission
import SelfPropelled.PayloadPairing
import SelfPropelled.ExitToggle
import SelfPropelled.IpcPoints
import SelfPropelled.TcpInjection
import SelfPropelled.PortResolvers
import SelfPropelled.TracingTable
import SelfPropelled.SecStar.LookupTable
import SelfPropelled.SecStar.Past
import SelfPropelled.SecStar.Palette
import SelfPropelled.SecStar.Totality
import SelfPropelled.Fpva.TraceCombination
import SelfPropelled.Mist.TraceFiles
import SelfPropelled.CallSpread
import SelfPropelled.SpinLock
import SelfPropelled.LivePatches
