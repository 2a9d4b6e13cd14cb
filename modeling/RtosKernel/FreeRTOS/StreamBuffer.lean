import RtosKernel.Lib.Word
import RtosKernel.Lib.Window
import RtosKernel.FreeRTOS.Def

/-! # Stream and message buffers (`stream_buffer.c`)

A circular store of `xLength` bytes of which one stays unused, so that `xHead` and `xTail` tell an empty buffer
from a full one. In a message buffer each message is preceded by its length, stored through
`configMESSAGE_BUFFER_LENGTH_TYPE`. -/
namespace RtosKernel.FreeRTOS.Stream
open Lib.Word Lib.Window FreeRTOS.Def

/-- The build: the width of `size_t`, `sizeof( configMESSAGE_BUFFER_LENGTH_TYPE )`, and
`sizeof( StreamBuffer_t )`. -/
structure Board where
  sizeBits : Nat
  /-- `sbBYTES_TO_STORE_MESSAGE_LENGTH` -/
  lengthBytes : Nat
  structSize : Nat
  bits_pos : 0 < sizeBits
  length_pos : 0 < lengthBytes
  length_le : 8 * lengthBytes ≤ sizeBits

/-- `StreamBuffer_t`; `pucBuffer` is the memory it points to. -/
structure StreamBuffer (Task : Type) where
  xTail : Nat
  xHead : Nat
  xLength : Nat
  xTriggerLevelBytes : Nat
  xTaskWaitingToReceive : Option Task
  xTaskWaitingToSend : Option Task
  pucBuffer : Nat → UInt8
  ucFlags : BitVec 8

def flagsIsMessageBuffer : BitVec 8 := 1

def flagsIsStaticallyAllocated : BitVec 8 := 2

variable {Task : Type}

def StreamBuffer.IsMessageBuffer (sb : StreamBuffer Task) : Prop := sb.ucFlags &&& flagsIsMessageBuffer ≠ 0
  deriving Decidable

/-! ## Creation -/

def prvInitialiseNewStreamBuffer (pucBuffer : Nat → UInt8) (xBufferSizeBytes xTriggerLevelBytes : Nat)
    (ucFlags : BitVec 8) : StreamBuffer Task where
  xTail := 0
  xHead := 0
  xLength := xBufferSizeBytes
  xTriggerLevelBytes := xTriggerLevelBytes
  xTaskWaitingToReceive := none
  xTaskWaitingToSend := none
  -- the assertion fills the buffer
  pucBuffer := fun i => if i < xBufferSizeBytes then 0x55 else pucBuffer i
  ucFlags := ucFlags

variable (c : Board)

/-- `xStreamBufferGenericCreate`: none where an assertion fails, `some none` for `NULL`. Whether `pvPortMalloc`
finds memory is `found`. -/
def xStreamBufferGenericCreate (pucBuffer : Nat → UInt8) (found : Bool)
    (xBufferSizeBytes xTriggerLevelBytes : Nat) (xIsMessageBuffer : Bool) :
    Option (Option (StreamBuffer Task)) := do
  let ucFlags := if xIsMessageBuffer then flagsIsMessageBuffer else 0
  configAssert (if xIsMessageBuffer then xBufferSizeBytes > c.lengthBytes else xBufferSizeBytes > 0)
  configAssert (xTriggerLevelBytes ≤ xBufferSizeBytes)
  let xTriggerLevelBytes := if xTriggerLevelBytes = 0 then 1 else xTriggerLevelBytes
  if xBufferSizeBytes < addw c.sizeBits (addw c.sizeBits xBufferSizeBytes 1) c.structSize ∧ found then
    return some (prvInitialiseNewStreamBuffer pucBuffer (addw c.sizeBits xBufferSizeBytes 1)
      xTriggerLevelBytes ucFlags)
  else return none

/-- `xStreamBufferGenericCreateStatic` with storage. -/
def xStreamBufferGenericCreateStatic (pucStreamBufferStorageArea : Nat → UInt8)
    (xBufferSizeBytes xTriggerLevelBytes : Nat) (xIsMessageBuffer : Bool) :
    Option (StreamBuffer Task) := do
  configAssert (xTriggerLevelBytes ≤ xBufferSizeBytes)
  let xTriggerLevelBytes := if xTriggerLevelBytes = 0 then 1 else xTriggerLevelBytes
  let ucFlags := if xIsMessageBuffer then flagsIsMessageBuffer ||| flagsIsStaticallyAllocated
    else flagsIsStaticallyAllocated
  configAssert (xBufferSizeBytes > c.lengthBytes)
  return prvInitialiseNewStreamBuffer pucStreamBufferStorageArea xBufferSizeBytes xTriggerLevelBytes
    (ucFlags ||| flagsIsStaticallyAllocated)

/-- `xStreamBufferReset`, and whether it returns `pdPASS`. -/
def xStreamBufferReset (sb : StreamBuffer Task) : StreamBuffer Task × Bool :=
  if sb.xTaskWaitingToReceive.isNone ∧ sb.xTaskWaitingToSend.isNone then
    (prvInitialiseNewStreamBuffer sb.pucBuffer sb.xLength sb.xTriggerLevelBytes sb.ucFlags, true)
  else (sb, false)

/-- `xStreamBufferSetTriggerLevel`, and whether it returns `pdPASS`. -/
def xStreamBufferSetTriggerLevel (sb : StreamBuffer Task) (xTriggerLevel : Nat) : StreamBuffer Task × Bool :=
  let xTriggerLevel := if xTriggerLevel = 0 then 1 else xTriggerLevel
  if xTriggerLevel < sb.xLength then ({ sb with xTriggerLevelBytes := xTriggerLevel }, true) else (sb, false)

/-! ## Bytes and spaces -/

def prvBytesInBuffer (sb : StreamBuffer Task) : Nat :=
  let xCount := subw c.sizeBits (addw c.sizeBits sb.xLength sb.xHead) sb.xTail
  if xCount ≥ sb.xLength then subw c.sizeBits xCount sb.xLength else xCount

/-- `xStreamBufferSpacesAvailable`. The loop reads `xTail` and `xHead` as of one moment. -/
def xStreamBufferSpacesAvailable (sb : StreamBuffer Task) : Nat :=
  let xSpace := subw c.sizeBits (addw c.sizeBits sb.xLength sb.xTail) sb.xHead
  let xSpace := subw c.sizeBits xSpace 1
  if xSpace ≥ sb.xLength then subw c.sizeBits xSpace sb.xLength else xSpace

def xStreamBufferBytesAvailable (sb : StreamBuffer Task) : Nat := prvBytesInBuffer c sb

/-- `prvWriteBytesToBuffer`: the buffer, and the head behind the bytes. -/
def prvWriteBytesToBuffer (sb : StreamBuffer Task) (pucData : List UInt8) (xHead : Nat) :
    Option (StreamBuffer Task × Nat) := do
  let xCount := pucData.length
  configAssert (xCount > 0)
  let xFirstLength := min (subw c.sizeBits sb.xLength xHead) xCount
  configAssert (addw c.sizeBits xHead xFirstLength ≤ sb.xLength)
  let buffer := memcpy sb.pucBuffer xHead (pucData.take xFirstLength)
  let buffer ← if xCount > xFirstLength then do
      configAssert (xCount - xFirstLength ≤ sb.xLength)
      pure (memcpy buffer 0 (pucData.drop xFirstLength))
    else pure buffer
  let xHead := addw c.sizeBits xHead xCount
  return ({ sb with pucBuffer := buffer },
    if xHead ≥ sb.xLength then subw c.sizeBits xHead sb.xLength else xHead)

/-- `prvReadBytesFromBuffer`: the bytes, and the tail behind them. -/
def prvReadBytesFromBuffer (sb : StreamBuffer Task) (xCount xTail : Nat) : Option (List UInt8 × Nat) := do
  configAssert (xCount ≠ 0)
  let xFirstLength := min (subw c.sizeBits sb.xLength xTail) xCount
  configAssert (xFirstLength ≤ xCount)
  configAssert (addw c.sizeBits xTail xFirstLength ≤ sb.xLength)
  let first := (List.range xFirstLength).map fun i => sb.pucBuffer (xTail + i)
  let pucData := if xCount > xFirstLength then
      first ++ (List.range (xCount - xFirstLength)).map fun i => sb.pucBuffer i
    else first
  let xTail := addw c.sizeBits xTail xCount
  return (pucData, if xTail ≥ sb.xLength then subw c.sizeBits xTail sb.xLength else xTail)

/-- The bytes of a length, as `configMESSAGE_BUFFER_LENGTH_TYPE` holds them on a
little-endian target: the first ones of a `size_t`. -/
def lengthToBytes (n : Nat) : List UInt8 := (List.range c.lengthBytes).map fun i => UInt8.ofNat (n >>> (8 * i))

/-- The value of `configMESSAGE_BUFFER_LENGTH_TYPE` in memory. -/
def lengthOfBytes : List UInt8 → Nat
  | [] => 0
  | b :: l => b.toNat + 256 * lengthOfBytes l

/-! ## Sending -/

/-- `prvWriteMessageToBuffer`, and the number of bytes written. -/
def prvWriteMessageToBuffer (sb : StreamBuffer Task) (pvTxData : List UInt8) (xSpace xRequiredSpace : Nat) :
    Option (StreamBuffer Task × Nat) := do
  let (sb, xNextHead, xDataLengthBytes) ←
    if sb.IsMessageBuffer then
      if xSpace ≥ xRequiredSpace then do
        let (sb, xNextHead) ← prvWriteBytesToBuffer c sb (lengthToBytes c pvTxData.length) sb.xHead
        pure (sb, xNextHead, pvTxData.length)
      else pure (sb, sb.xHead, 0)
    else pure (sb, sb.xHead, min pvTxData.length xSpace)
  if xDataLengthBytes ≠ 0 then
    let (sb, xHead) ← prvWriteBytesToBuffer c sb (pvTxData.take xDataLengthBytes) xNextHead
    return ({ sb with xHead }, xDataLengthBytes)
  else return (sb, 0)

/-- `sbSEND_COMPLETED`: a task that waits for data is notified. -/
def sbSendCompleted (sb : StreamBuffer Task) : StreamBuffer Task := { sb with xTaskWaitingToReceive := none }

/-- The end of a send that wrote `xReturn` bytes. -/
def endSend (sb : StreamBuffer Task) (xReturn : Nat) : StreamBuffer Task :=
  if xReturn > 0 ∧ prvBytesInBuffer c sb ≥ sb.xTriggerLevelBytes then sbSendCompleted sb else sb

/-- `xStreamBufferSend` up to its wait: `xRequiredSpace`, and whether it may wait. -/
def requiredSpace (sb : StreamBuffer Task) (xDataLengthBytes : Nat) : Option (Nat × Bool) :=
  let xMaxReportedSpace := subw c.sizeBits sb.xLength 1
  if sb.IsMessageBuffer then do
    let xRequiredSpace := addw c.sizeBits xDataLengthBytes c.lengthBytes
    configAssert (xRequiredSpace > xDataLengthBytes)
    return (xRequiredSpace, decide (xRequiredSpace ≤ xMaxReportedSpace))
  else some (min xDataLengthBytes xMaxReportedSpace, true)

/-- `xStreamBufferSend` with `xTicksToWait` 0, and what it returns. -/
def xStreamBufferSend (sb : StreamBuffer Task) (pvTxData : List UInt8) : Option (StreamBuffer Task × Nat) := do
  let (xRequiredSpace, _) ← requiredSpace c sb pvTxData.length
  let xSpace := xStreamBufferSpacesAvailable c sb
  let (sb, xReturn) ← prvWriteMessageToBuffer c sb pvTxData xSpace xRequiredSpace
  return (endSend c sb xReturn, xReturn)

def xStreamBufferSendFromISR (sb : StreamBuffer Task) (pvTxData : List UInt8) :
    Option (StreamBuffer Task × Nat) := do
  let xRequiredSpace := if sb.IsMessageBuffer then addw c.sizeBits pvTxData.length c.lengthBytes
    else pvTxData.length
  let xSpace := xStreamBufferSpacesAvailable c sb
  let (sb, xReturn) ← prvWriteMessageToBuffer c sb pvTxData xSpace xRequiredSpace
  return (endSend c sb xReturn, xReturn)

/-- `prvReadMessageFromBuffer`: the buffer, and the bytes copied to `pvRxData`. -/
def prvReadMessageFromBuffer (sb : StreamBuffer Task) (xBufferLengthBytes xBytesAvailable : Nat) :
    Option (StreamBuffer Task × List UInt8) := do
  let (xNextTail, xNextMessageLength, xBytesAvailable) ←
    if sb.IsMessageBuffer then do
      let (xTemp, xNextTail) ← prvReadBytesFromBuffer c sb c.lengthBytes sb.xTail
      let xNextMessageLength := lengthOfBytes xTemp
      pure (xNextTail, if xNextMessageLength > xBufferLengthBytes then 0 else xNextMessageLength,
        subw c.sizeBits xBytesAvailable c.lengthBytes)
    else pure (sb.xTail, xBufferLengthBytes, xBytesAvailable)
  let xCount := min xNextMessageLength xBytesAvailable
  if xCount ≠ 0 then
    let (pvRxData, xTail) ← prvReadBytesFromBuffer c sb xCount xNextTail
    return ({ sb with xTail }, pvRxData)
  else return (sb, [])

def bytesToStoreMessageLength (sb : StreamBuffer Task) : Nat :=
  if sb.IsMessageBuffer then c.lengthBytes else 0

/-- `sbRECEIVE_COMPLETED`: a task that waits for space is notified. -/
def sbReceiveCompleted (sb : StreamBuffer Task) : StreamBuffer Task := { sb with xTaskWaitingToSend := none }

/-- A receive that found `xBytesAvailable` bytes. -/
def endReceive (sb : StreamBuffer Task) (xBufferLengthBytes xBytesAvailable : Nat) :
    Option (StreamBuffer Task × List UInt8) :=
  if xBytesAvailable > bytesToStoreMessageLength c sb then do
    let (sb, pvRxData) ← prvReadMessageFromBuffer c sb xBufferLengthBytes xBytesAvailable
    return (if pvRxData.length ≠ 0 then sbReceiveCompleted sb else sb, pvRxData)
  else some (sb, [])

/-- `xStreamBufferReceive` with `xTicksToWait` 0, and the bytes it copies. -/
def xStreamBufferReceive (sb : StreamBuffer Task) (xBufferLengthBytes : Nat) :
    Option (StreamBuffer Task × List UInt8) :=
  endReceive c sb xBufferLengthBytes (prvBytesInBuffer c sb)

/-- `xStreamBufferReceiveFromISR`, which differs in how it notifies a task only. -/
def xStreamBufferReceiveFromISR (sb : StreamBuffer Task) (xBufferLengthBytes : Nat) :
    Option (StreamBuffer Task × List UInt8) :=
  endReceive c sb xBufferLengthBytes (prvBytesInBuffer c sb)

end RtosKernel.FreeRTOS.Stream
