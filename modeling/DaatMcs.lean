import DaatMcs.Lib.Steps
import DaatMcs.Lib.Literal
import DaatMcs.Lib.Lines
import DaatMcs.Lib.Rows
import DaatMcs.Lib.Rounding
import DaatMcs.Lib.CInt
import DaatMcs.Lib.Text
import DaatMcs.Lib.Unicode
import DaatMcs.Lib.Regex
import DaatMcs.Lib.Registers
import DaatMcs.Lib.RoundRobin
import DaatMcs.Lib.Traverse
import DaatMcs.Lib.Grid
import DaatMcs.Lib.FirstAfter
import DaatMcs.Lib.RunningMean
import DaatMcs.Lib.LastWrite
import DaatMcs.Lib.StableSort
import DaatMcs.Lib.Marked
import DaatMcs.Lib.Dict
import DaatMcs.Lib.DiGraph
import DaatMcs.Lib.Combinations
import DaatMcs.Lib.Hex
import DaatMcs.Lib.Runs
import DaatMcs.Lib.UpTo
import DaatMcs.Lib.Labels
import DaatMcs.Lib.Substitution
import DaatMcs.Lib.Naming
import DaatMcs.Lib.Brackets
import DaatMcs.Lib.Paths
import DaatMcs.Lib.RingBuffer
import DaatMcs.Lib.Mutex
import DaatMcs.Logger.Client
import DaatMcs.Logger.ClientMemory
import DaatMcs.Logger.Server
import DaatMcs.Logger.ProfilingTcp
import DaatMcs.Logger.Commands
import DaatMcs.Logger.Handshake
import DaatMcs.Logger.Boundary
import DaatMcs.Generator.CacheColors
import DaatMcs.Generator.Mitigation
import DaatMcs.Generator.ColorTags
import DaatMcs.Generator.Splicing
import DaatMcs.Generator.Leftovers
import DaatMcs.Generator.Budgets
import DaatMcs.Generator.VariantNames
import DaatMcs.Generator.TripleNames
import DaatMcs.Generator.Combine
import DaatMcs.Generator.VmBlocks
import DaatMcs.Generator.Reconstruct
import DaatMcs.Generator.Placeholders
import DaatMcs.Generator.Isolation
import DaatMcs.Generator.Schedule
import DaatMcs.Generator.Directories
import DaatMcs.Generator.TestLogger
import DaatMcs.Generator.LogFile
import DaatMcs.Generator.Guests
import DaatMcs.Generator.GuestNames
import DaatMcs.Generator.CacheGuests
import DaatMcs.Generator.Patching
import DaatMcs.Generator.Campaign
import DaatMcs.Tuner.Metrics
import DaatMcs.Tuner.DeltaModel
import DaatMcs.Tuner.Matrices
import DaatMcs.Tuner.Trees
import DaatMcs.Tuner.Accept
import DaatMcs.Tuner.ClassPath
import DaatMcs.Tuner.Ranking
import DaatMcs.Tuner.Rankable
import DaatMcs.Tuner.Checkpoints
import DaatMcs.Tuner.FileNames
import DaatMcs.Tuner.Loading
import DaatMcs.Tuner.RankModel
import DaatMcs.Tuner.Pipeline
import DaatMcs.Scripts.CciNames
import DaatMcs.Scripts.Latencies
import DaatMcs.Scripts.MacroLogs
import DaatMcs.Scripts.MacroMeans
import DaatMcs.Scripts.Pairing
import DaatMcs.Scripts.ViolinNames
import DaatMcs.Scripts.Violins
import DaatMcs.Baremetal.Cci400
import DaatMcs.Baremetal.CciSetup
import DaatMcs.Baremetal.BfxIp
import DaatMcs.Baremetal.Zdma
import DaatMcs.Baremetal.DmaCores
import DaatMcs.Baremetal.DutyCycle
import DaatMcs.Baremetal.DmaRuns
import DaatMcs.Runtime.Spinlock
import DaatMcs.Runtime.Gicv2
import DaatMcs.Runtime.Irq
import DaatMcs.Runtime.Ipi
import DaatMcs.Baremetal.Tickets
import DaatMcs.Virtio.Queue
import DaatMcs.Virtio.Protocol
import DaatMcs.Gui.Cards
import DaatMcs.Gui.Editor
