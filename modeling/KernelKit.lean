import KernelKit.BinformatResume
import KernelKit.BinformatContainer
import KernelKit.MmapSchedules
import KernelKit.CorpusStability
import KernelKit.WalkExistence
import KernelKit.CorpusOrder
import KernelKit.CorpusSymlinks
import KernelKit.CorpusLimits
import KernelKit.NumaMask
import KernelKit.NumaSysfs
import KernelKit.NumaLoadOnce
import KernelKit.NumaPlacement
import KernelKit.NumaValidation
import KernelKit.MmapBlockOwnership
import KernelKit.HugePagesRelease
import KernelKit.HugePageVecArray
import KernelKit.PageAlignment
import KernelKit.Prefetch
import KernelKit.WhileLoop
import KernelKit.PrefetchLoop
import KernelKit.IrqAffinity
import KernelKit.IrqAffinityPrinter
import KernelKit.CacheTypes
import KernelKit.Readahead
import KernelKit.HugePagesEffects
import KernelKit.HugePagesInit
import KernelKit.HugePagesDrop
import KernelKit.HugePagesSlice
import KernelKit.HugePagesSizes
import KernelKit.NumaSpellings
import KernelKit.MeminfoFailClosed
import KernelKit.PerfSession
import KernelKit.CpuFeatures
import KernelKit.ElementLives
import KernelKit.PartialWrites
import KernelKit.PageLocks
import KernelKit.BinformatTorn
import KernelKit.ThreadPlacement
import KernelKit.PageCacheHints
import KernelKit.MmapAgreement
import KernelKit.CacheFiles
import KernelKit.MeminfoPrinter
import KernelKit.MmapBlockBinding
import KernelKit.NodeCounts
