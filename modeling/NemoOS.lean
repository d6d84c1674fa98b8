import NemoOS.IpcQueue
import NemoOS.Lib.RingBuffer
import NemoOS.Lib.Runs
import NemoOS.Lib.Words
import NemoOS.Process
import NemoOS.Scheduler
import NemoOS.Lib.Turns
import NemoOS.RoundRobin
import NemoOS.Ipc
import NemoOS.ProcessLife
import NemoOS.SavedContext
import NemoOS.ContextOwner
import NemoOS.IpcFifo
import NemoOS.Lib.PathComponents
import NemoOS.Vfs
import NemoOS.MountSelection
import NemoOS.MountCrossing
import NemoOS.Lib.Loops
import NemoOS.Lib.Blocks
import NemoOS.Fat32
import NemoOS.Fat32Read
import NemoOS.Fat32Dir
import NemoOS.Fat32Volume
import NemoOS.FsNodes
import NemoOS.Shell
import NemoOS.WorkingDirectory
import NemoOS.NodeSeparation
import NemoOS.Lib.ByteMemory
import NemoOS.Pmm
import NemoOS.PageSet
import NemoOS.Kmalloc
import NemoOS.Lib.DoublyLinked
import NemoOS.HeapBlocks
import NemoOS.HeapInvariant
import NemoOS.HeapCalls
import NemoOS.HeapTiling
import NemoOS.HeapSafety
import NemoOS.HeapRelease
import NemoOS.Vmm
import NemoOS.Syscall
import NemoOS.PageTables
import NemoOS.AddressSpaces
import NemoOS.PageMapping
import NemoOS.DirectoryFill
import NemoOS.SpaceOwnership
import NemoOS.MapEffect
import NemoOS.ProcessMemory
import NemoOS.ProcessCreation
import NemoOS.Elf
import NemoOS.ElfConfined
import NemoOS.ProcessPlan
import NemoOS.ProcessPages
import NemoOS.UserView
import NemoOS.TwoRuns
import NemoOS.StaleData
import NemoOS.Exec
import NemoOS.ExecSpace
import NemoOS.Rtl8139
import NemoOS.NetPoll
import NemoOS.Arp
import NemoOS.HeapGrowth
import NemoOS.KernelStack
import NemoOS.BitmapBounds
import NemoOS.MapPointwise
import NemoOS.SpaceClone
import NemoOS.Paging
import NemoOS.LoadRoom
import NemoOS.ElfImage
import NemoOS.ElfReads
import NemoOS.StackPage
import NemoOS.ImageExtent
import NemoOS.PathComposition
import NemoOS.Fat32Mount
import NemoOS.Fat32Termination
import NemoOS.Fat32Names
import NemoOS.Lib.CStrings
import NemoOS.Lib.SinglyLinked
import NemoOS.Ramfs
import NemoOS.RamfsNode
import NemoOS.RamfsFile
import NemoOS.RamfsChildren
import NemoOS.RamfsDirectory
import NemoOS.Lib.SlotTables
import NemoOS.ArpCache
import NemoOS.Checksum
import NemoOS.Icmp
import NemoOS.EchoReply
import NemoOS.Terminal
import NemoOS.LineEditing
import NemoOS.Ping
import NemoOS.WholeNames
import NemoOS.PwdBuffer
import NemoOS.WaitReaping
import NemoOS.Lib.BoundedFifo
import NemoOS.Keyboard
import NemoOS.KeyboardBuffer
import NemoOS.Itoa
import NemoOS.Lib.InterruptFrames
import NemoOS.ContextErasure
import NemoOS.StackContexts
import NemoOS.ContextCreation
import NemoOS.TimeSharing
import NemoOS.Lib.AtaChannel
import NemoOS.AtaDriver
import NemoOS.AtaIdentify
import NemoOS.AtaDisks
import NemoOS.Lib.DescriptorRing
import NemoOS.TransmitRing
import NemoOS.PciDevices
import NemoOS.NicSetup
