import AuraOS.WorkingDirectory
import AuraOS.RamFileSystemRefinement
import AuraOS.KernelHeapCompleteness
import AuraOS.CheckedLoads
import AuraOS.ProgramStacks
import AuraOS.ElfWriter
import AuraOS.TaskEndings
import AuraOS.RootTasks
import AuraOS.ContextSwitch
import AuraOS.SleepingTasks
import AuraOS.ProcessorStartup
import AuraOS.FrameOwnership
import AuraOS.MemoryMaps
import AuraOS.SyscallEntry
import AuraOS.PointerConfinement
import AuraOS.PacketRoundTrip
import AuraOS.HeapBreak
import AuraOS.MmapRollback
import AuraOS.FaultOutcomes
import AuraOS.SerialAtomicity
import AuraOS.SerialRing
import AuraOS.Fat32Loops
import AuraOS.Fat32Mount
import AuraOS.Fat32LostClusters
import AuraOS.Fat32Freeing
import AuraOS.PingReplies
import AuraOS.Spinlocks
import AuraOS.FatalMessages
import AuraOS.Canvas
