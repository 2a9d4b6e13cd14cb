import RtosKernel.RtThread.RingBufferFifo
import RtosKernel.RtThread.MessageQueueRuns
import RtosKernel.FreeRTOS.MessageBuffer
import RtosKernel.FreeRTOS.StreamBufferWaits
import RtosKernel.FreeRTOS.DelayRuns
import RtosKernel.FreeRTOS.EventGroupSync
import RtosKernel.RtThread.EventWaits
import RtosKernel.Zephyr.RingBufferItems
import RtosKernel.Zephyr.MsgqFifo
import RtosKernel.Zephyr.MutexInversion
import RtosKernel.Ucos.MutexPrioRuns
import RtosKernel.Zephyr.MemBlocksRuns
import RtosKernel.Ucos.FlagWaits
import RtosKernel.Ucos.TmrExact
import RtosKernel.Ucos.QueueRuns
import RtosKernel.Zephyr.SchedPreempt
import RtosKernel.Zephyr.SchedWaits
import RtosKernel.Zephyr.Expiry
import RtosKernel.Zephyr.WorkDelays
import RtosKernel.Zephyr.WorkSyncs
import RtosKernel.Zephyr.WorkDrains
import RtosKernel.Zephyr.PollReturns
import RtosKernel.Zephyr.PendOrder
import RtosKernel.RtThread.MailboxRuns
import RtosKernel.RtThread.DataQueueRuns
import RtosKernel.Zephyr.KEventRuns
import RtosKernel.Zephyr.KTimerRuns
import RtosKernel.Zephyr.WorkPollRuns
import RtosKernel.Zephyr.OnOffRuns
import RtosKernel.RtThread.SlabRuns
import RtosKernel.RtThread.HeapSizes
import RtosKernel.RtThread.MutexPreempt
import RtosKernel.RtThread.WorkQueueSyncRuns
import RtosKernel.RtThread.RingblkQueueRuns
import RtosKernel.RtThread.TimerCheckRuns
import RtosKernel.FreeRTOS.QueueWakeups
import RtosKernel.Ucos.TickPeriodic
import RtosKernel.Zephyr.BitArrayFirstFit
import RtosKernel.FreeRTOS.Heap4Stats
import RtosKernel.Zephyr.MpscPbufEnds
import RtosKernel.Zephyr.PipeFlush
import RtosKernel.Ucos.PendAbortRuns
import RtosKernel.RtThread.ReadyLists
import RtosKernel.Zephyr.JsonStride
