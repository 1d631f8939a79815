import DlxOs.Library.Histories
import DlxOs.Queue.Runs
import DlxOs.Kernel.Ownership
import DlxOs.Kernel.Turns
import DlxOs.Kernel.Supply
import DlxOs.Kernel.Handles
import DlxOs.Kernel.Endings
import DlxOs.Kernel.Levels
import DlxOs.Kernel.Semaphores
import DlxOs.Kernel.HandOff
import DlxOs.Kernel.RoundRobin
import DlxOs.Apps.Q2.Safety
import DlxOs.Apps.Q3.FivePairs
import DlxOs.Apps.Q4.Wakeups
import DlxOs.Apps.Q5
import DlxOs.Apps.Liveness
import DlxOs.Apps.Termination
import DlxOs.Apps.Page
import DlxOs.Files.Descriptors
import DlxOs.Files.FailedForks
import DlxOs.Files.Disagreements
import DlxOs.Memory.Allocator
import DlxOs.Memory.Bytewise
import DlxOs.Memory.LifeCycle
import DlxOs.Context.Operands
import DlxOs.Misc.Search
import DlxOs.Misc.Decimal
import DlxOs.Traps.Modes
import DlxOs.Traps.Launch
import DlxOs.Traps.Independence
import DlxOs.Paging.Isolation
