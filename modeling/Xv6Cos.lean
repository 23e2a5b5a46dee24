import Xv6Cos.Verif.PipeStream
import Xv6Cos.Verif.PipeSleep
import Xv6Cos.Verif.Reservation
import Xv6Cos.Verif.LogRun
import Xv6Cos.Verif.CowRefines
import Xv6Cos.Verif.OwnPages
import Xv6Cos.Verif.GrowProc
import Xv6Cos.Verif.AlarmRun
import Xv6Cos.Verif.Recycle
import Xv6Cos.Verif.ProcTree
import Xv6Cos.Verif.InodeTable
import Xv6Cos.Verif.FsSafety
import Xv6Cos.Verif.RunTime
import Xv6Cos.Verif.SleepTime
import Xv6Cos.Verif.FileBytes
import Xv6Cos.Verif.Registers
import Xv6Cos.Verif.Tickets
import Xv6Cos.Verif.Selection
import Xv6Cos.Verif.Virtio
import Xv6Cos.Verif.Umalloc
import Xv6Cos.Verif.ExecStack
import Xv6Cos.Verif.Shell
import Xv6Cos.Verif.Grep
import Xv6Cos.Verif.Memmove
import Xv6Cos.Verif.Printf
