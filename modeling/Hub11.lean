import Hub11.Effect.Program
import Hub11.Effect.Fuel
import Hub11.Posix.FileSystem
import Hub11.Posix.Tables
import Hub11.Posix.Views
import Hub11.Posix.Forests
import Hub11.Posix.Kernel
import Hub11.Posix.Calls
import Hub11.Posix.Outcomes
import Hub11.Posix.Finite
import Hub11.Posix.Paths
import Hub11.Posix.InPlace
import Hub11.Posix.Moves
import Hub11.Posix.Edits
import Hub11.Recovery.RescueInit
import Hub11.Recovery.Overlay
import Hub11.Recovery.MergeStep
import Hub11.Recovery.Merge
import Hub11.Recovery.Rootfs
import Hub11.Recovery.Phases
import Hub11.Recovery.Install
import Hub11.Recovery.Direct
import Hub11.Recovery.Boot
import Hub11.Recovery.Spots
import Hub11.Recovery.Rescue
import Hub11.Recovery.Repair
import Hub11.Recovery.Obstacles
import Hub11.Recovery.Layout
import Hub11.Recovery.Exact
import Hub11.Recovery.CopyFile
import Hub11.Recovery.Fallback
import Hub11.Recovery.Flat
import Hub11.Recovery.Order
import Hub11.Recovery.Reboot
import Hub11.Recovery.Untouched
import Hub11.Recovery.Confined
import Hub11.Recovery.WellFounded
import Hub11.Recovery.Descriptors
import Hub11.Recovery.Dirents
import Hub11.Effect.Script
import Hub11.Effect.Interleave
import Hub11.Shell.Pipeline
import Hub11.Shell.KeyFile
import Hub11.Scripts.K3sJoin
import Hub11.Scripts.BuildFit
import Hub11.Scripts.BuildRootfs
import Hub11.Scripts.LeakGate
import Hub11.Scripts.KernelTree
import Hub11.Scripts.CiBuild
import Hub11.Scripts.FlashBoot
import Hub11.Scripts.FlashSafety
import Hub11.Scripts.FlashRuns
import Hub11.Scripts.BackupArchive
import Hub11.Scripts.FlashRace
import Hub11.Scripts.StageModules
import Hub11.Scripts.StageFrame
import Hub11.Scripts.WifiProfile
import Hub11.Scripts.Hotspot
import Hub11.Drivers.Es8328
import Hub11.Data.Channel
import Hub11.Drivers.MsgbufRing
import Hub11.Drivers.MsgbufProtocol
import Hub11.Data.FreeStack
import Hub11.Drivers.PktIdMap
import Hub11.Data.Chains
import Hub11.Drivers.FlowRing
import Hub11.Drivers.FlowBooks
import Hub11.Drivers.FlowRuns
import Hub11.Drivers.FlowCount
