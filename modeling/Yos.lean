import Yos.Mem.HeapRun
import Yos.Mem.HeapTiling
import Yos.Mem.Regions
import Yos.Mem.MmapRun
import Yos.Mem.Unmap
import Yos.Mem.Fresh
import Yos.Mem.Layout
import Yos.Mem.EntryInv
import Yos.Mem.HeldPtr
import Yos.Mem.FirstFit
import Yos.Mem.HeapAccess
import Yos.Mem.Capacity
import Yos.Mem.Hostile
import Yos.Mem.Complete
import Yos.Mem.Mremap
import Yos.Mem.Canonical
import Yos.Io.Fd
import Yos.Io.GuestPtr
import Yos.Io.FdLife
import Yos.Io.FdOwner
import Yos.Io.FileTable
import Yos.Io.FileHandles
import Yos.Io.PosixFds
import Yos.Io.FdNumbers
import Yos.Libc.Env
import Yos.Libc.Kqueue
import Yos.Libc.Timeouts
import Yos.Libc.ProcWatch
import Yos.Proc.Mutex
import Yos.Proc.CondVarRun
import Yos.Proc.SetjmpRun
import Yos.Proc.RwLock
import Yos.Proc.Once
import Yos.Proc.BarrierRun
import Yos.Proc.SyncCells
import Yos.Proc.ThreadConserved
import Yos.Proc.Setjmp
import Yos.Proc.Reserved
import Yos.Proc.ForkCopy
import Yos.Proc.Snapshot
import Yos.Proc.Lifecycle
import Yos.Proc.ProcOwn
import Yos.Proc.Orphans
import Yos.Proc.BlockedWait
import Yos.Proc.WaitFamily
import Yos.Proc.ProcEnd
import Yos.Proc.CtxHandle
import Yos.Libc.ExitNotify
import Yos.Io.Umask
import Yos.Proc.ErrorReply
import Yos.Proc.ForkFail
import Yos.Proc.Kill
import Yos.Lib.Shared
import Yos.Libc.Cursors
import Yos.Proc.SigPending
import Yos.Proc.SigMask
import Yos.Proc.ExecReload
import Yos.Proc.ExecFail
import Yos.Proc.ExecArgv
import Yos.Proc.PathSearch
import Yos.Libc.Regex
import Yos.Io.Paths
import Yos.Lib.PathText
import Yos.Io.Canon
import Yos.Vfs.Mount
import Yos.Vfs.Spelling
import Yos.Vfs.Procfs
import Yos.Vfs.ProcList
import Yos.Io.Chdir
import Yos.Io.Mkfifo
import Yos.Io.AtCalls
import Yos.Lib.Source
import Yos.Io.StdinStream
import Yos.Io.HostStreams
import Yos.Libc.EnvMaps
import Yos.Libc.SockAddr
import Yos.Libc.SendMsg
import Yos.Libc.ScmRights
import Yos.Codegen.Remap
import Yos.Codegen.BridgeNames
import Yos.Codegen.BridgeErrno
import Yos.Codegen.ConvertBridge
import Yos.Codegen.PtrReturn
import Yos.Codegen.LinkSig
import Yos.Codegen.Analyse
import Yos.Libc.LoginTty
import Yos.Io.PtyRead
import Yos.Io.Poll
import Yos.Libc.Select
import Yos.Lib.FlagMap
import Yos.Libc.Termios
import Yos.Io.WideChar
import Yos.Mem.HeapClient
import Yos.Io.GetDelim
import Yos.Libc.Fgetln
import Yos.Libc.Glob
import Yos.Libc.AddrInfo
import Yos.Lib.Account
import Yos.Io.DirStream
import Yos.Io.DirLife
import Yos.Libc.Random
import Yos.Lib.Numeral
import Yos.Libc.Strto
import Yos.Lib.Comparator
import Yos.Libc.SortSearch
import Yos.Libc.Getopt
import Yos.Libc.Passwd
import Yos.Libc.EnvStore
import Yos.Libc.FormatWalk
import Yos.Libc.Printf
import Yos.Libc.PrintfFamily
import Yos.Codegen.MacroEval
import Yos.Codegen.NarrowPtr
import Yos.Libc.ScanfRun
