import Xv6.PipeWakeup
import Xv6.SleepLock
import Xv6.ProcKill
import Xv6.LogSleep
import Xv6.BufList
import Xv6.FlatDisk
import Xv6.FileRefs
import Xv6.MkfsMount
import Xv6.InodeLife
import Xv6.ProcSlots
import Xv6.ProcCount
import Xv6.SmpSteps
import Xv6.VirtioProtocol
import Xv6.Fork
import Xv6.PipeRead
import Xv6.WriteLog
import Xv6.LinkCount
import Xv6.SharedWrite
import Xv6.Printf
import Xv6.GrepLines
import Xv6.Console
import Xv6.ShellGrammar
import Xv6.UmallocSound
import Xv6.UmallocBreak
