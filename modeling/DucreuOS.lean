import DucreuOS.Library.ByteMemory
import DucreuOS.Library.Transition
import DucreuOS.Library.FileMap
import DucreuOS.PageAllocator
import DucreuOS.PageLimits
import DucreuOS.Library.PointerTree
import DucreuOS.PageTable
import DucreuOS.Library.Rv64
import DucreuOS.TrapFrame
import DucreuOS.Library.LinkedRing
import DucreuOS.ProcessList
import DucreuOS.Scheduler
import DucreuOS.VirtioPolling
import DucreuOS.Library.Tiling
import DucreuOS.KernelHeap
import DucreuOS.Minix3
import DucreuOS.BlockRequests
import DucreuOS.ProcessIds
import DucreuOS.UserAccess
import DucreuOS.UserProcess
import DucreuOS.ElfLoader
import DucreuOS.HeapFrames
import DucreuOS.Library.Scan
import DucreuOS.ZoneWalker
import DucreuOS.Library.PlacedTree
import DucreuOS.ZoneTree
import DucreuOS.Library.CircularBuffer
import DucreuOS.Locks
import DucreuOS.RingBuffer
import DucreuOS.InputDevices
import DucreuOS.ZoneSetter
import DucreuOS.ZoneSearch
import DucreuOS.Library.CursorSearch
import DucreuOS.InodeSearch
import DucreuOS.OccupiedBits
import DucreuOS.SleepUntil
import DucreuOS.Fairness
import DucreuOS.WakeUp
import DucreuOS.ZoneClear
import DucreuOS.HartControl
import DucreuOS.GpuActive
import DucreuOS.FileOperations
import DucreuOS.LeakedBlocks
import DucreuOS.ZoneUpdate
import DucreuOS.FileGrowth
import DucreuOS.FileContents
import DucreuOS.HeapRequests
import DucreuOS.RangeMapping
import DucreuOS.MmuErrors
import DucreuOS.TableFree
import DucreuOS.FileReading
import DucreuOS.FileAppending
import DucreuOS.FileCreation
import DucreuOS.BlockTransfers
import DucreuOS.FileRanges
import DucreuOS.LastFileZone
import DucreuOS.ZoneAddresses
import DucreuOS.UserCopies
import DucreuOS.GetInput
import DucreuOS.ImageCopies
import DucreuOS.Directories
import DucreuOS.Removal
import DucreuOS.TakenZones
import DucreuOS.DirectoryEntries
import DucreuOS.EntryCreation
import DucreuOS.MakeDirectory
import DucreuOS.ClearedEntries
import DucreuOS.EntryRemoval
import DucreuOS.RemoveDirectory
import DucreuOS.RemoveFile
import DucreuOS.Hierarchy
import DucreuOS.DirectoryCalls
import DucreuOS.DirectoryMap
import DucreuOS.VfsNames
import DucreuOS.Library.Words
import DucreuOS.Strings
import DucreuOS.CommandLine
import DucreuOS.Dispatch
import DucreuOS.Numerals
import DucreuOS.Printf
import DucreuOS.NumberText
import DucreuOS.PathNames
import DucreuOS.Paint
import DucreuOS.Console
import DucreuOS.Library.ForwardList
import DucreuOS.Regions
import DucreuOS.Library.WordLoops
import DucreuOS.Rectangles
import DucreuOS.Circles
import DucreuOS.DrawCalls
import DucreuOS.FrameOffsets
import DucreuOS.Bitmaps
import DucreuOS.PciCapabilities
import DucreuOS.PciBars
import DucreuOS.MakeRemove
import DucreuOS.ConsistentCalls
import DucreuOS.FilesKept
import DucreuOS.FileSystem
import DucreuOS.Library.ChildTree
import DucreuOS.VfsCache
import DucreuOS.MemoryFunctions
import DucreuOS.Uart
import DucreuOS.TrapVectors
import DucreuOS.SupervisorCalls
import DucreuOS.Boot
import DucreuOS.KernelMap
import DucreuOS.ContextSwitch
import DucreuOS.Timer
