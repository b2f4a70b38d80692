import Aethalloc.Lib.Machine
import Aethalloc.Lib.Trace
import Aethalloc.Lib.Cost
import Aethalloc.Lib.Chain
import Aethalloc.Lib.Word
import Aethalloc.Lib.Memory
import Aethalloc.Lib.Store
import Aethalloc.Lib.FreeList
import Aethalloc.Lib.Tiling
import Aethalloc.Lib.Bins
import Aethalloc.Lib.Rounding
import Aethalloc.Lib.Places
import Aethalloc.Lib.RoundRobin
import Aethalloc.Lib.Text
import Aethalloc.Core.Magazine
import Aethalloc.Core.Metadata
import Aethalloc.Core.TreiberStack
import Aethalloc.Core.MagazineExchange
import Aethalloc.Core.Buddy
import Aethalloc.Core.SizeClass
import Aethalloc.Core.Page
import Aethalloc.Core.Slab
import Aethalloc.Core.ThreadLocal
import Aethalloc.Amo.RingBuffer
import Aethalloc.Amo.Command
import Aethalloc.Amo.SupportCore
import Aethalloc.Abi.Global
import Aethalloc.Abi.Lib
import Aethalloc.Abi.SimpleCache
import Aethalloc.Abi.SimpleExchange
import Aethalloc.Abi.MagazineThreads
import Aethalloc.Abi.Interface
import Aethalloc.Abi.Contract
import Aethalloc.Abi.Metrics
import Aethalloc.Vmpc.Compactor
import Aethalloc.Hess.TagManager
import Aethalloc.Hess.X86
import Aethalloc.Hess.Cheri
import Aethalloc.Exporter.Server
import Aethalloc.Exporter.Scrape
import Aethalloc.Exporter.Running
import Aethalloc.Proofs.Magazine
import Aethalloc.Proofs.Metadata
import Aethalloc.Proofs.TreiberStack
import Aethalloc.Proofs.TreiberStack.Progress
import Aethalloc.Proofs.MagazineExchange
import Aethalloc.Proofs.RingBuffer
import Aethalloc.Proofs.RingBuffer.Observers
import Aethalloc.Proofs.SupportCore
import Aethalloc.Proofs.Buddy
import Aethalloc.Proofs.Buddy.Canonical
import Aethalloc.Proofs.Buddy.Lifetime
import Aethalloc.Proofs.Buddy.Refusal
import Aethalloc.Proofs.SizeClass
import Aethalloc.Proofs.Page
import Aethalloc.Proofs.Slab
import Aethalloc.Proofs.ThreadLocal
import Aethalloc.Proofs.ClassMaps
import Aethalloc.Proofs.Abi
import Aethalloc.Proofs.Abi.ClosedLoop
import Aethalloc.Proofs.Abi.Headers
import Aethalloc.Proofs.Abi.Effects
import Aethalloc.Proofs.Abi.Exhaustion
import Aethalloc.Proofs.Abi.Simple
import Aethalloc.Proofs.Abi.Carving
import Aethalloc.Proofs.Abi.Addresses
import Aethalloc.Proofs.Abi.Contract
import Aethalloc.Proofs.Abi.Refinement
import Aethalloc.Proofs.Abi.Simple.Frame
import Aethalloc.Proofs.Abi.Growth
import Aethalloc.Proofs.Abi.MagazineGrowth
import Aethalloc.Proofs.Abi.Simple.Growth
import Aethalloc.Proofs.Abi.Simple.Exchange.Invariant
import Aethalloc.Proofs.Abi.Simple.Exchange.Steps
import Aethalloc.Proofs.Abi.Simple.Exchange
import Aethalloc.Proofs.Abi.MagazineThreads.Invariant
import Aethalloc.Proofs.Abi.MagazineThreads.Calls
import Aethalloc.Proofs.Abi.MagazineThreads.Exchange
import Aethalloc.Proofs.Abi.MagazineThreads
import Aethalloc.Proofs.Abi.Metrics
import Aethalloc.Proofs.Compactor
import Aethalloc.Proofs.TagManager
import Aethalloc.Proofs.Cheri
import Aethalloc.Proofs.Tagging
import Aethalloc.Proofs.Exporter
import Aethalloc.Proofs.Exporter.Running
