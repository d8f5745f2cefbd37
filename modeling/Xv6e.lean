import Xv6e.Log.Crash
import Xv6e.Log.Reservation
import Xv6e.Memory.HeapTiling
import Xv6e.Memory.HeapBacking
import Xv6e.Memory.FrameRuns
import Xv6e.Memory.Copyout
import Xv6e.Cache.BufferRuns
import Xv6e.Cache.InodeRuns
import Xv6e.Fs.LinkCounts
import Xv6e.Fs.PathLookup
import Xv6e.Process.ParentChild
import Xv6e.Process.Kill
import Xv6e.Process.SleepWakeup
import Xv6e.Process.SleepLock
import Xv6e.Process.Interruptible
import Xv6e.Device.IdeRuns
import Xv6e.User.UmallocRuns
import Xv6e.User.Grep
import Xv6e.Device.Mp
import Xv6e.Process.Arguments
import Xv6e.User.MallocSizes
import Xv6e.Memory.KernelMap
import Xv6e.User.ShCommands
import Xv6e.Memory.PlainScan
import Xv6e.Memory.Memmove
import Xv6e.Device.Printint
import Xv6e.Device.Bootmain
import Xv6e.Process.Interrupts
