import OsTruth.Library.Fallible
import OsTruth.Lib.Bitmap
import OsTruth.Fs.Inode
import OsTruth.Device.Ide
import OsTruth.Device.Ioqueue
import OsTruth.Device.IoqueueBlock
import OsTruth.Fs.BitmapSync
import OsTruth.Fs.DirInstall
import OsTruth.Fs.FileCalls
import OsTruth.Fs.FileRead
import OsTruth.Fs.FileTable
import OsTruth.Fs.Fs
import OsTruth.Fs.InodeShare
import OsTruth.Fs.OpenCounts
import OsTruth.Fs.WriteDeny
import OsTruth.Kernel.Heap
import OsTruth.Kernel.HeapCalls
import OsTruth.Kernel.HeapRun
import OsTruth.Kernel.PageLocks
import OsTruth.Lib.BitmapScan
import OsTruth.Thread.Pid
import OsTruth.Thread.Schedule
import OsTruth.Userprog.Descriptors
import OsTruth.Userprog.ForkCopy
import OsTruth.Userprog.ForkStack
import OsTruth.Userprog.ForkTree
import OsTruth.Userprog.ForkUndo
import OsTruth.Userprog.HeapFork
import OsTruth.Userprog.InodeHeap
import OsTruth.Userprog.Writers
import OsTruth.Fs.DirOpen
import OsTruth.Fs.Search
import OsTruth.Fs.DirCalls
import OsTruth.Fs.Getcwd
import OsTruth.Library.Interleave
import OsTruth.Userprog.Readers
import OsTruth.Fs.DirRead
import OsTruth.Fs.FileUndo
import OsTruth.Fs.FormatLayout
import OsTruth.Fs.Release
import OsTruth.Fs.DirDelete
import OsTruth.Fs.DirMade
import OsTruth.Fs.EntryNames
import OsTruth.Fs.OpenPath
import OsTruth.Fs.OpenRuns
import OsTruth.Fs.PathBytes
import OsTruth.Fs.PathNames
import OsTruth.Fs.MkdirUndo
import OsTruth.Fs.PathSafe
import OsTruth.Fs.RmdirFile
import OsTruth.Fs.SyncBuffer
import OsTruth.Fs.WriteBounds
import OsTruth.Userprog.Positions
import OsTruth.Shell.WashPath
import OsTruth.Fs.OpendirPath
import OsTruth.Lib.Printf
import OsTruth.Lib.Stdio
import OsTruth.Device.Sectors
import OsTruth.Device.Partition
import OsTruth.Device.Chain
import OsTruth.Device.IdeInit
import OsTruth.Fs.FilesysInit
import OsTruth.Kernel.MemPool
import OsTruth.Lib.ListRuns
import OsTruth.Lib.Print
import OsTruth.Lib.PutInt
import OsTruth.Device.Keyboard
import OsTruth.Shell.Readline
import OsTruth.Shell.Cd
import OsTruth.Shell.CmdParse
import OsTruth.Shell.MyShell
import OsTruth.Shell.PathCommands
import OsTruth.Userprog.SpaceRuns
import OsTruth.Device.Console
import OsTruth.Fs.Chdir
import OsTruth.Fs.Mount
import OsTruth.Kernel.Interrupt
import OsTruth.Library.Rota
import OsTruth.Thread.RoundRobin
import OsTruth.Thread.SwitchRuns
import OsTruth.Userprog.ForkModels
import OsTruth.Userprog.StartProcess
import OsTruth.Userprog.SyscallInit
import OsTruth.Userprog.Tss
