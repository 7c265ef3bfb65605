import CoreLink.Lib.Cells
import CoreLink.Lib.Chain
import CoreLink.Lib.Counters
import CoreLink.Lib.Extent
import CoreLink.Lib.Fifo
import CoreLink.Lib.Layout
import CoreLink.Lib.Links
import CoreLink.Lib.Ring
import CoreLink.Lib.Run
import CoreLink.Lib.SortedBy
import CoreLink.Lib.SkipList
import CoreLink.Lib.WaitList
import CoreLink.Lib.Word
import CoreLink.RtThread.MemFirstFit
import CoreLink.RtThread.SchedRuns
import CoreLink.RtThread.MqRefine
import CoreLink.RtThread.MutexPriority
import CoreLink.RtThread.TimerRuns
import CoreLink.RtThread.TimerCheck
import CoreLink.RtThread.SoftTimer
import CoreLink.RtThread.MailboxRefine
import CoreLink.RtThread.EventRuns
import CoreLink.RtThread.Semaphore
import CoreLink.RtThread.MutexOwner
import CoreLink.RtThread.MutexSignalRuns
import CoreLink.RtThread.PriorityWaitRuns
import CoreLink.RtThread.MemheapRuns
import CoreLink.RtThread.Ringbuffer
import CoreLink.RtThread.DataQueueRefine
import CoreLink.RtThread.Completion
import CoreLink.RtThread.Serial
import CoreLink.RtThread.Waitqueue
import CoreLink.RtThread.DfsFdRuns
import CoreLink.RtThread.PthreadCondRuns
import CoreLink.RtThread.PthreadRwlockExclusive
import CoreLink.RtThread.PthreadRwlockWaits
import CoreLink.Shell.Fifo
import CoreLink.RtThread.RamfsRefine
import CoreLink.RtThread.DfsMount
import CoreLink.Shell.FinshCorrect
import CoreLink.RtThread.MemheapComplete
import CoreLink.RtThread.MemRoom
import CoreLink.RtThread.AllocRoom
import CoreLink.RtThread.MemContents
import CoreLink.Vbus.PrioQueueRefine
import CoreLink.Vbus.RingDelivery
import CoreLink.Vbus.Wakeup
import CoreLink.RtThread.SerialDma
import CoreLink.RtThread.YmodemDelivery
import CoreLink.RtThread.AlarmNearest
import CoreLink.RtThread.AtClientLines
import CoreLink.RtThread.RingbufferForce
import CoreLink.RtThread.Pipe
import CoreLink.RtThread.SoftTimerSleep
import CoreLink.RtThread.DfsPathBytes
import CoreLink.RtThread.Workqueue
import CoreLink.RtThread.WorkqueueCancel
import CoreLink.RtThread.WorkqueuePending
import CoreLink.RtThread.Signal
import CoreLink.RtThread.SignalMask
import CoreLink.RtThread.SlabPage
import CoreLink.RtThread.PipeFops
import CoreLink.RtThread.Ringblk
import CoreLink.RtThread.RingblkQueue
import CoreLink.RtThread.Slab
import CoreLink.RtThread.SlabInvariant
import CoreLink.RtThread.SlabCalls
import CoreLink.RtThread.SlabRuns
import CoreLink.RtThread.SlabMemory
import CoreLink.RtThread.SlabAlign
import CoreLink.RtThread.RingblkSafe
import CoreLink.RtThread.DfsUnlink
import CoreLink.RtThread.Romfs
import CoreLink.RtThread.RamfsNames
import CoreLink.RtThread.FinshLiterals
import CoreLink.RtThread.FinshTokenLiterals
import CoreLink.Shell.FinshParserExpr
import CoreLink.RtThread.KserviceMemory
import CoreLink.RtThread.ClockTime
import CoreLink.RtThread.MinilibcMktime
import CoreLink.RtThread.VsnprintfBuffer
import CoreLink.RtThread.VsnprintfConversion
import CoreLink.Shell.FinshSymbols
import CoreLink.Shell.FinshSteps
import CoreLink.RtThread.Device
import CoreLink.Shell.ShellLine
import CoreLink.Shell.ShellDispatch
import CoreLink.Shell.FifoToken
import CoreLink.Xprintf.Xatoi
import CoreLink.Shell.ShellVars
import CoreLink.Lib.Block
import CoreLink.Lib.Digits
import CoreLink.Shell.Tools
import CoreLink.Xprintf.Xvprintf
import CoreLink.Lib.Binary64
import CoreLink.FpMath.Sll
import CoreLink.FpMath.Arith
import CoreLink.FpMath.Inverse
import CoreLink.FpMath.Sqrt
import CoreLink.FpMath.Floor
import CoreLink.Shell.MshSplit
import CoreLink.Shell.WaitAuth
import CoreLink.Lib.Buffer
import CoreLink.Lib.CommonPrefix
import CoreLink.Shell.LineEditor
import CoreLink.Shell.LineEditorRuns
import CoreLink.FpMath.Exp
import CoreLink.FpMath.Near
import CoreLink.FpMath.Trig
import CoreLink.Lib.Arctan
import CoreLink.FpMath.Atan
import CoreLink.Lib.Frames
import CoreLink.FreeRtos.StreamBuffer
import CoreLink.FreeRtos.StreamBufferPair
import CoreLink.FreeRtos.StreamBufferRefine
