import RtosKernel.Lib.Runs
import RtosKernel.FreeRTOS.StreamBufferFifo

/-! # Tasks that wait on a stream buffer

`stream_buffer.c` assumes one writer and one reader. Each of their calls is cut
where the other may run: at the waits, between the count of the space and the
write, between the write and the notification, and between the count of the
bytes and the read. -/
namespace RtosKernel.FreeRTOS.Stream
open Lib.Word Lib.Window FreeRTOS.Def Option

variable {d : List UInt8} {xSpace n req : Nat}

inductive Writer (Task : Type) where
  | idle
  /-- in `xTaskNotifyWait`, for space -/
  | waiting (task : Task) (pvTxData : List UInt8) (xSpace xRequiredSpace : Nat)
  /-- before `prvWriteMessageToBuffer` -/
  | writing (pvTxData : List UInt8) (xSpace xRequiredSpace : Nat)
  | written (xReturn : Nat)

/-- Where the reader is in its receive. -/
inductive Reader where
  | idle
  /-- in `xTaskNotifyWait`, for data -/
  | waiting (xBufferLengthBytes : Nat)
  /-- before `prvReadMessageFromBuffer` -/
  | reading (xBufferLengthBytes xBytesAvailable : Nat)

/-- The buffer with its writer and its reader. -/
structure Sys (Task : Type) where
  sb : StreamBuffer Task
  writer : Writer Task
  reader : Reader

variable {Task : Type} {r : StreamBuffer Task × Writer Task} {task : Task} (c : Board)

/-- The check for space in the loop of `xStreamBufferSend`. -/
def awaitSpace (sb : StreamBuffer Task) (task : Task) (pvTxData : List UInt8) (xRequiredSpace : Nat) :
    Option (StreamBuffer Task × Writer Task) := do
  let xSpace := xStreamBufferSpacesAvailable c sb
  if xSpace < xRequiredSpace then
    configAssert (sb.xTaskWaitingToSend.isNone)
    return ({ sb with xTaskWaitingToSend := some task }, .waiting task pvTxData xSpace xRequiredSpace)
  else return (sb, .writing pvTxData xSpace xRequiredSpace)

/-- `xStreamBufferSend` up to its wait or its write. -/
def startSend (sb : StreamBuffer Task) (task : Task) (pvTxData : List UInt8) (blocks : Bool) :
    Option (StreamBuffer Task × Writer Task) := do
  let (xRequiredSpace, mayWait) ← requiredSpace c sb pvTxData.length
  if blocks ∧ mayWait then awaitSpace c sb task pvTxData xRequiredSpace
  else return (sb, .writing pvTxData (xStreamBufferSpacesAvailable c sb) xRequiredSpace)

/-- `xStreamBufferSendFromISR` up to its write. -/
def startSendFromISR (sb : StreamBuffer Task) (pvTxData : List UInt8) : Writer Task :=
  .writing pvTxData (xStreamBufferSpacesAvailable c sb)
    (if sb.IsMessageBuffer then addw c.sizeBits pvTxData.length c.lengthBytes else pvTxData.length)

/-- `xStreamBufferSend` behind its wait, whose time may have run out. -/
def resumeSend (sb : StreamBuffer Task) (timedOut : Bool) (task : Task) (pvTxData : List UInt8)
    (xSpace xRequiredSpace : Nat) : Option (StreamBuffer Task × Writer Task) :=
  let sb := { sb with xTaskWaitingToSend := none }
  if timedOut then
    some (sb, .writing pvTxData (if xSpace = 0 then xStreamBufferSpacesAvailable c sb else xSpace) xRequiredSpace)
  else awaitSpace c sb task pvTxData xRequiredSpace

/-- `xStreamBufferReceive` up to its wait or its read. -/
def startReceive (sb : StreamBuffer Task) (task : Task) (xBufferLengthBytes : Nat) (blocks : Bool) :
    Option (StreamBuffer Task × Reader) := do
  let xBytesAvailable := prvBytesInBuffer c sb
  if blocks ∧ xBytesAvailable ≤ bytesToStoreMessageLength c sb then
    configAssert (sb.xTaskWaitingToReceive.isNone)
    return ({ sb with xTaskWaitingToReceive := some task }, .waiting xBufferLengthBytes)
  else return (sb, .reading xBufferLengthBytes xBytesAvailable)

/-- `xStreamBufferReceive` behind its wait. -/
def resumeReceive (sb : StreamBuffer Task) (xBufferLengthBytes : Nat) : StreamBuffer Task × Reader :=
  let sb := { sb with xTaskWaitingToReceive := none }
  (sb, .reading xBufferLengthBytes (prvBytesInBuffer c sb))

inductive Event (Task : Type) where
  | send (task : Task) (pvTxData : List UInt8) (blocks : Bool)
  | sendFromISR (pvTxData : List UInt8)
  | resumeSend (timedOut : Bool)
  | write
  /-- the writer notifies the reader and its send returns -/
  | completeSend
  | receive (task : Task) (xBufferLengthBytes : Nat) (blocks : Bool)
  | receiveFromISR (xBufferLengthBytes : Nat)
  | resumeReceive
  /-- the reader reads, notifies the writer and its receive returns -/
  | completeReceive
  | reset
  | setTriggerLevel (xTriggerLevel : Nat)

/-- One event; none where it cannot happen or an assertion fails. -/
def step (s : Sys Task) : Event Task → Option (Sys Task)
  | .send task d blocks => match s.writer with
    | .idle => (startSend c s.sb task d blocks).map fun r => { s with sb := r.1, writer := r.2 }
    | _ => none
  | .sendFromISR d => match s.writer with
    | .idle => some { s with writer := startSendFromISR c s.sb d }
    | _ => none
  | .resumeSend timedOut => match s.writer with
    | .waiting task d xSpace xRequiredSpace =>
      (resumeSend c s.sb timedOut task d xSpace xRequiredSpace).map fun r => { s with sb := r.1, writer := r.2 }
    | _ => none
  | .write => match s.writer with
    | .writing d xSpace xRequiredSpace =>
      (prvWriteMessageToBuffer c s.sb d xSpace xRequiredSpace).map fun r =>
        { s with sb := r.1, writer := .written r.2 }
    | _ => none
  | .completeSend => match s.writer with
    | .written xReturn => some { s with sb := endSend c s.sb xReturn, writer := .idle }
    | _ => none
  | .receive task n blocks => match s.reader with
    | .idle => (startReceive c s.sb task n blocks).map fun r => { s with sb := r.1, reader := r.2 }
    | _ => none
  | .receiveFromISR n => match s.reader with
    | .idle => some { s with reader := .reading n (prvBytesInBuffer c s.sb) }
    | _ => none
  | .resumeReceive => match s.reader with
    | .waiting n => let r := resumeReceive c s.sb n; some { s with sb := r.1, reader := r.2 }
    | _ => none
  | .completeReceive => match s.reader with
    | .reading n xBytesAvailable => (endReceive c s.sb n xBytesAvailable).map fun r =>
        { s with sb := r.1, reader := .idle }
    | _ => none
  | .reset => some { s with sb := (xStreamBufferReset s.sb).1 }
  | .setTriggerLevel n => some { s with sb := (xStreamBufferSetTriggerLevel s.sb n).1 }

def run (s : Sys Task) : List (Event Task) → Option (Sys Task)
  | [] => some s
  | e :: es => (step c s e).bind fun s' => run s' es

def unused (sb : StreamBuffer Task) : Sys Task := ⟨sb, .idle, .idle⟩

variable {c}

/-! ## What a write and a read may change -/

variable {sb sb' : StreamBuffer Task}

/-- The same buffer as far as a waiting reader is concerned. -/
structure Framed (sb sb' : StreamBuffer Task) : Prop where
  xLength : sb'.xLength = sb.xLength
  ucFlags : sb'.ucFlags = sb.ucFlags
  xTriggerLevelBytes : sb'.xTriggerLevelBytes = sb.xTriggerLevelBytes
  xTaskWaitingToReceive : sb'.xTaskWaitingToReceive = sb.xTaskWaitingToReceive

theorem Framed.refl (sb : StreamBuffer Task) : Framed sb sb := ⟨rfl, rfl, rfl, rfl⟩

theorem prvWriteMessageToBuffer_frame {xRequiredSpace : Nat} (h : Inv c sb) (hsp : xSpace ≤ sb.xLength - 1)
    (hreq : sb.IsMessageBuffer → xRequiredSpace = d.length + c.lengthBytes)
    (hgo : prvWriteMessageToBuffer c sb d xSpace xRequiredSpace = some (sb', n)) :
    Inv c sb' ∧ Framed sb sb' ∧ sb'.xTail = sb.xTail ∧ (n = 0 → sb'.xHead = sb.xHead) ∧
      (sb.IsMessageBuffer → sb.xLength ≤ c.lengthBytes + 1 → n = 0) := by
  have hfits := h.fits
  have hlt := h.head_lt
  have hpos := c.length_pos
  have hmod : ∀ x, x % sb.xLength < sb.xLength := fun x => Nat.mod_lt _ (by omega)
  by_cases hm : sb.IsMessageBuffer
  · rw [hreq hm] at hgo
    simp only [prvWriteMessageToBuffer, if_pos hm, bind, pure] at hgo
    by_cases hroom : xSpace ≥ d.length + c.lengthBytes
    · rw [if_pos hroom, prvWriteBytesToBuffer_eq (by omega) (by rw [length_lengthToBytes]; omega) hlt
        (by rw [length_lengthToBytes]; omega) (by rw [length_lengthToBytes]; omega)] at hgo
      simp only [bind_some] at hgo
      by_cases h0 : d.length = 0
      · rw [if_neg (by omega)] at hgo
        cases hgo
        exact ⟨⟨hlt, h.tail_lt, hfits⟩, ⟨rfl, rfl, rfl, rfl⟩, rfl, fun _ => rfl, fun _ _ => rfl⟩
      · have hnext := hmod (sb.xHead + (lengthToBytes c d.length).length)
        rw [if_pos h0, List.take_length, prvWriteBytesToBuffer_eq] at hgo
        · cases hgo
          exact ⟨⟨hmod _, h.tail_lt, hfits⟩, ⟨rfl, rfl, rfl, rfl⟩, rfl, fun he => absurd he h0,
            fun _ htiny => by omega⟩
        · show sb.xLength < _
          omega
        · omega
        · exact hnext
        · omega
        · show _ ≤ sb.xLength
          omega
    · rw [if_neg hroom] at hgo
      cases hgo
      exact ⟨h, .refl _, rfl, fun _ => rfl, fun _ _ => rfl⟩
  · simp only [prvWriteMessageToBuffer, if_neg hm, bind, pure, bind_some] at hgo
    by_cases h0 : min d.length xSpace = 0
    · rw [if_neg (by omega)] at hgo
      cases hgo
      exact ⟨h, .refl _, rfl, fun _ => rfl, fun he => absurd he hm⟩
    · have hlen : (d.take (min d.length xSpace)).length = min d.length xSpace := by
        rw [List.length_take]; omega
      rw [if_pos h0, prvWriteBytesToBuffer_eq (by omega) (by omega) hlt (by omega) (by omega)] at hgo
      cases hgo
      exact ⟨⟨hmod _, h.tail_lt, hfits⟩, ⟨rfl, rfl, rfl, rfl⟩, rfl, fun he => absurd he h0, fun he => absurd he hm⟩

theorem prvReadMessageFromBuffer_frame {xBytesAvailable : Nat} {l : List UInt8} (h : Inv c sb)
    (hb : xBytesAvailable < sb.xLength) (hany : bytesToStoreMessageLength c sb < xBytesAvailable)
    (hgo : prvReadMessageFromBuffer c sb n xBytesAvailable = some (sb', l)) :
    Inv c sb' ∧ Framed sb sb' ∧ sb'.xHead = sb.xHead := by
  have hfits := h.fits
  have hlt := h.tail_lt
  have hpos := c.length_pos
  have hmod : ∀ x, x % sb.xLength < sb.xLength := fun x => Nat.mod_lt _ (by omega)
  -- a message and a stream differ in where the read starts and in how much there is
  have hread : ∀ {pos count : Nat}, pos < sb.xLength → count < sb.xLength →
      (if count ≠ 0 then (prvReadBytesFromBuffer c sb count pos).bind fun r => some ({ sb with xTail := r.2 }, r.1)
        else some (sb, [])) = some (sb', l) → Inv c sb' ∧ Framed sb sb' ∧ sb'.xHead = sb.xHead := by
    intro pos count hpos hcount hgo
    by_cases h0 : count = 0
    · rw [if_neg (not_not.mpr h0)] at hgo
      cases hgo
      exact ⟨h, .refl _, rfl⟩
    · rw [if_pos h0, prvReadBytesFromBuffer_eq hfits hpos h0 hcount.le] at hgo
      cases hgo
      exact ⟨⟨h.head_lt, hmod _, hfits⟩, ⟨rfl, rfl, rfl, rfl⟩, rfl⟩
  by_cases hm : sb.IsMessageBuffer
  · simp only [bytesToStoreMessageLength, if_pos hm] at hany
    simp only [prvReadMessageFromBuffer, if_pos hm, bind, pure,
      prvReadBytesFromBuffer_eq h.fits hlt (show c.lengthBytes ≠ 0 by omega) (by omega), bind_some] at hgo
    rw [subw_of_le (by omega) (by omega)] at hgo
    exact hread (hmod _) (lt_of_le_of_lt (Nat.min_le_right ..) (by omega)) hgo
  · simp only [prvReadMessageFromBuffer, if_neg hm, bind, pure, bind_some] at hgo
    exact hread hlt (lt_of_le_of_lt (Nat.min_le_right ..) hb) hgo

theorem endReceive_frame {xBytesAvailable : Nat} {l : List UInt8} (h : Inv c sb)
    (hb : xBytesAvailable < sb.xLength) (hgo : endReceive c sb n xBytesAvailable = some (sb', l)) :
    Inv c sb' ∧ Framed sb sb' ∧ sb'.xHead = sb.xHead ∧
      (xBytesAvailable ≤ bytesToStoreMessageLength c sb → sb'.xTail = sb.xTail) := by
  by_cases hany : xBytesAvailable > bytesToStoreMessageLength c sb
  · simp only [endReceive, if_pos hany, bind, pure, bind_eq_some_iff] at hgo
    obtain ⟨⟨sb1, l1⟩, hread, hend⟩ := hgo
    obtain ⟨hi, hf, hh⟩ := prvReadMessageFromBuffer_frame h hb hany hread
    obtain ⟨rfl, -⟩ := hend
    split
    · exact ⟨⟨hi.head_lt, hi.tail_lt, hi.fits⟩, ⟨hf.xLength, hf.ucFlags, hf.xTriggerLevelBytes,
        hf.xTaskWaitingToReceive⟩, hh, fun he => by omega⟩
    · exact ⟨hi, hf, hh, fun he => by omega⟩
  · simp only [endReceive, if_neg hany, some.injEq, Prod.mk.injEq] at hgo
    obtain ⟨rfl, -⟩ := hgo
    exact ⟨h, .refl _, rfl, fun _ => rfl⟩

/-! ## The invariant -/

/-- What the writer carries: a space of the buffer, and what its message needs. -/
def WriterOk (c : Board) (sb : StreamBuffer Task) : Writer Task → Prop
  | .waiting _ d xSpace xRequiredSpace | .writing d xSpace xRequiredSpace =>
    xSpace ≤ sb.xLength - 1 ∧ (sb.IsMessageBuffer → xRequiredSpace = d.length + c.lengthBytes)
  | .idle | .written _ => True

/-- Only a reader that waits is registered. -/
def ReaderOk (sb : StreamBuffer Task) : Reader → Prop
  | .idle => sb.xTaskWaitingToReceive = none
  | .waiting _ => True
  | .reading _ xBytesAvailable => xBytesAvailable < sb.xLength ∧ sb.xTaskWaitingToReceive = none

/-- A registered reader finds room in the buffer, unless the writer is about to notify it. -/
structure Waits (c : Board) (s : Sys Task) : Prop where
  inv : Inv c s.sb
  two_le : 2 ≤ s.sb.xLength
  trigger_lt : s.sb.xTriggerLevelBytes < s.sb.xLength
  /-- the smallest message buffer holds no message -/
  tiny : s.sb.IsMessageBuffer → s.sb.xLength ≤ c.lengthBytes + 1 → heldLength s.sb = 0
  writer : WriterOk c s.sb s.writer
  reader : ReaderOk s.sb s.reader
  awake : s.sb.xTaskWaitingToReceive ≠ none →
    heldLength s.sb + 1 < s.sb.xLength ∨ ∃ n, 0 < n ∧ s.writer = .written n

theorem Framed.isMessageBuffer (hf : Framed sb sb') : sb'.IsMessageBuffer ↔ sb.IsMessageBuffer := by
  unfold StreamBuffer.IsMessageBuffer
  rw [hf.ucFlags]

theorem Framed.writerOk (hf : Framed sb sb') {w : Writer Task} (h : WriterOk c sb w) : WriterOk c sb' w := by
  cases w with
  | idle => trivial
  | written n => trivial
  | waiting task d xSpace xRequiredSpace =>
    exact ⟨hf.xLength ▸ h.1, fun hm => h.2 (hf.isMessageBuffer.mp hm)⟩
  | writing d xSpace xRequiredSpace =>
    exact ⟨hf.xLength ▸ h.1, fun hm => h.2 (hf.isMessageBuffer.mp hm)⟩

theorem Framed.readerOk (hf : Framed sb sb') {r : Reader} (h : ReaderOk sb r) : ReaderOk sb' r := by
  cases r with
  | idle => exact hf.xTaskWaitingToReceive.trans h
  | waiting n => trivial
  | reading n b => exact ⟨hf.xLength ▸ h.1, hf.xTaskWaitingToReceive.trans h.2⟩

theorem heldLength_congr (hl : sb'.xLength = sb.xLength) (hh : sb'.xHead = sb.xHead) (ht : sb'.xTail = sb.xTail) :
    heldLength sb' = heldLength sb := by
  rw [heldLength, heldLength, hl, hh, ht]

variable {s : Sys Task}

/-! ### The writer -/

theorem Waits.goOn (h : Waits c s) (hw : ∀ n, s.writer ≠ .written n) {w : Writer Task} (hok : WriterOk c s.sb w)
    (x : Option Task) : Waits c { s with sb := { s.sb with xTaskWaitingToSend := x }, writer := w } where
  inv := ⟨h.inv.head_lt, h.inv.tail_lt, h.inv.fits⟩
  two_le := h.two_le
  trigger_lt := h.trigger_lt
  tiny := h.tiny
  writer := Framed.writerOk ⟨rfl, rfl, rfl, rfl⟩ hok
  reader := Framed.readerOk ⟨rfl, rfl, rfl, rfl⟩ h.reader
  awake hr := .inl ((h.awake hr).resolve_right fun ⟨n, _, hn⟩ => hw n hn)

theorem spaces_le (h : Inv c sb) : xStreamBufferSpacesAvailable c sb ≤ sb.xLength - 1 := by
  rw [xStreamBufferSpacesAvailable_eq h]; omega

theorem awaitSpace_waits (h : Waits c s) (hw : ∀ n, s.writer ≠ .written n)
    (hreq : s.sb.IsMessageBuffer → req = d.length + c.lengthBytes) {x : Option Task}
    (hgo : awaitSpace c { s.sb with xTaskWaitingToSend := x } task d req = some r) :
    Waits c { s with sb := r.1, writer := r.2 } := by
  have hi : Inv c { s.sb with xTaskWaitingToSend := x } := ⟨h.inv.head_lt, h.inv.tail_lt, h.inv.fits⟩
  simp only [awaitSpace, bind, pure] at hgo
  split at hgo
  · simp only [bind_eq_some_iff, some.injEq] at hgo
    obtain ⟨_, _, rfl⟩ := hgo
    refine h.goOn hw ?_ _
    exact ⟨spaces_le hi, hreq⟩
  · cases hgo
    refine h.goOn hw ?_ _
    exact ⟨spaces_le hi, hreq⟩

theorem startSend_waits (h : Waits c s) (hw : s.writer = .idle) {blocks : Bool} (hgo : startSend c s.sb task d blocks = some r) :
    Waits c { s with sb := r.1, writer := r.2 } := by
  have hno : ∀ n, s.writer ≠ .written n := fun n hn => by rw [hw] at hn; cases hn
  simp only [startSend, bind, pure, bind_eq_some_iff] at hgo
  obtain ⟨⟨req, mayWait⟩, hreq, hgo⟩ := hgo
  have hmsg : s.sb.IsMessageBuffer → req = d.length + c.lengthBytes := fun hm => by
    rcases Nat.lt_or_ge (d.length + c.lengthBytes) (2 ^ c.sizeBits) with hd | hd
    · obtain ⟨b, hreq'⟩ := requiredSpace_message hm hd
      rw [hreq'] at hreq
      cases hreq
      rfl
    · rw [requiredSpace_overflow hm hd] at hreq
      cases hreq
  split at hgo
  · exact awaitSpace_waits h hno hmsg (x := s.sb.xTaskWaitingToSend) hgo
  · cases hgo
    refine h.goOn hno ?_ s.sb.xTaskWaitingToSend
    exact ⟨spaces_le h.inv, hmsg⟩

theorem resumeSend_waits (h : Waits c s) {timedOut : Bool}
    (hw : s.writer = .waiting task d xSpace req)
    (hgo : resumeSend c s.sb timedOut task d xSpace req = some r) :
    Waits c { s with sb := r.1, writer := r.2 } := by
  have hno : ∀ n, s.writer ≠ .written n := fun n hn => by rw [hw] at hn; cases hn
  have hok : WriterOk c s.sb (.waiting task d xSpace req) := hw ▸ h.writer
  have hi : Inv c { s.sb with xTaskWaitingToSend := none } := ⟨h.inv.head_lt, h.inv.tail_lt, h.inv.fits⟩
  simp only [resumeSend] at hgo
  split at hgo
  · cases hgo
    refine h.goOn hno ?_ none
    refine ⟨?_, hok.2⟩
    split
    · exact spaces_le hi
    · exact hok.1
  · exact awaitSpace_waits h hno hok.2 hgo

theorem write_waits (h : Waits c s) (hw : s.writer = .writing d xSpace req)
    {r : StreamBuffer Task × Nat} (hgo : prvWriteMessageToBuffer c s.sb d xSpace req = some r) :
    Waits c { s with sb := r.1, writer := .written r.2 } := by
  have hok : WriterOk c s.sb (.writing d xSpace req) := hw ▸ h.writer
  obtain ⟨hi, hf, htail, hhead, htiny⟩ := prvWriteMessageToBuffer_frame h.inv hok.1 hok.2 hgo
  refine ⟨hi, hf.xLength ▸ h.two_le, hf.xLength ▸ hf.xTriggerLevelBytes ▸ h.trigger_lt, fun hm hl => ?_, trivial,
    hf.readerOk h.reader, fun hr => ?_⟩
  · rw [hf.isMessageBuffer] at hm
    rw [hf.xLength] at hl
    show heldLength r.1 = 0
    rw [heldLength_congr hf.xLength (hhead (htiny hm hl)) htail]
    exact h.tiny hm hl
  · -- what was written is notified next, and nothing written leaves the room there was
    rcases Nat.eq_zero_or_pos r.2 with h0 | hpos
    · left
      rw [hf.xTaskWaitingToReceive] at hr
      show heldLength r.1 + 1 < r.1.xLength
      rw [heldLength_congr hf.xLength (hhead h0) htail, hf.xLength]
      exact (h.awake hr).resolve_right fun ⟨n, _, hn⟩ => by rw [hw] at hn; cases hn
    · exact .inr ⟨r.2, hpos, rfl⟩

theorem endSend_waits (h : Waits c s) (hw : s.writer = .written n) :
    Waits c { s with sb := endSend c s.sb n, writer := .idle } := by
  unfold endSend
  split
  · exact ⟨⟨h.inv.head_lt, h.inv.tail_lt, h.inv.fits⟩, h.two_le, h.trigger_lt, h.tiny, trivial, by
      have hr := h.reader
      revert hr
      cases s.reader with
      | idle => exact fun _ => rfl
      | waiting _ => exact fun _ => trivial
      | reading _ _ => exact fun hr => ⟨hr.1, rfl⟩, fun hr => absurd rfl hr⟩
  · rename_i hnot
    refine ⟨h.inv, h.two_le, h.trigger_lt, h.tiny, trivial, h.reader, fun hr => .inl ?_⟩
    rcases h.awake hr with hroom | ⟨k, hk, hn⟩
    · exact hroom
    · -- fewer bytes than the trigger level, which is below the length
      rw [hw] at hn
      cases hn
      rw [prvBytesInBuffer_eq h.inv] at hnot
      have := h.trigger_lt
      show heldLength s.sb + 1 < s.sb.xLength
      omega

/-! ### The reader -/

theorem Waits.readOn (h : Waits c s) {x : Option Task} {r : Reader}
    (hok : ReaderOk { s.sb with xTaskWaitingToReceive := x } r)
    (hx : x ≠ none → heldLength s.sb + 1 < s.sb.xLength ∨ ∃ n, 0 < n ∧ s.writer = .written n) :
    Waits c { s with sb := { s.sb with xTaskWaitingToReceive := x }, reader := r } where
  inv := ⟨h.inv.head_lt, h.inv.tail_lt, h.inv.fits⟩
  two_le := h.two_le
  trigger_lt := h.trigger_lt
  tiny := h.tiny
  writer := by
    have hw := h.writer
    revert hw
    show WriterOk c s.sb s.writer → WriterOk c _ s.writer
    cases s.writer <;> exact id
  reader := hok
  awake := hx

theorem prvBytesInBuffer_lt (h : Inv c sb) : prvBytesInBuffer c sb < sb.xLength := by
  rw [prvBytesInBuffer_eq h]; exact heldLength_lt h

theorem Waits.readOn_of_idle (h : Waits c s) (hr : s.reader = .idle) (n : Nat) :
    Waits c { s with reader := .reading n (prvBytesInBuffer c s.sb) } := by
  have hok : ReaderOk s.sb .idle := hr ▸ h.reader
  refine h.readOn (x := s.sb.xTaskWaitingToReceive) ?_ h.awake
  exact ⟨prvBytesInBuffer_lt h.inv, hok⟩

theorem startReceive_waits (h : Waits c s) (hr : s.reader = .idle) {blocks : Bool}
    {r : StreamBuffer Task × Reader} (hgo : startReceive c s.sb task n blocks = some r) :
    Waits c { s with sb := r.1, reader := r.2 } := by
  simp only [startReceive, bind, pure] at hgo
  split at hgo
  · rename_i hnone
    simp only [bind_eq_some_iff, some.injEq] at hgo
    obtain ⟨_, _, rfl⟩ := hgo
    refine h.readOn trivial fun _ => .inl ?_
    have hfew := hnone.2
    have hl := h.two_le
    rw [prvBytesInBuffer_eq h.inv, bytesToStoreMessageLength] at hfew
    split at hfew
    · rename_i hm
      rcases Nat.lt_or_ge (c.lengthBytes + 1) s.sb.xLength with hbig | htiny
      · omega
      · rw [h.tiny hm htiny]; omega
    · omega
  · cases hgo
    exact h.readOn_of_idle hr n

theorem resumeReceive_waits (h : Waits c s) (n : Nat) :
    Waits c { s with sb := (resumeReceive c s.sb n).1, reader := (resumeReceive c s.sb n).2 } := by
  have hi : Inv c { s.sb with xTaskWaitingToReceive := none } := ⟨h.inv.head_lt, h.inv.tail_lt, h.inv.fits⟩
  refine h.readOn ?_ fun hx => absurd rfl hx
  exact ⟨prvBytesInBuffer_lt hi, rfl⟩

theorem endReceive_waits (h : Waits c s) {b : Nat} (hr : s.reader = .reading n b)
    {r : StreamBuffer Task × List UInt8} (hgo : endReceive c s.sb n b = some r) :
    Waits c { s with sb := r.1, reader := .idle } := by
  have hok : ReaderOk s.sb (.reading n b) := hr ▸ h.reader
  obtain ⟨hi, hf, hhead, htail⟩ := endReceive_frame h.inv hok.1 hgo
  have hnone : r.1.xTaskWaitingToReceive = none := hf.xTaskWaitingToReceive.trans hok.2
  refine ⟨hi, hf.xLength ▸ h.two_le, hf.xLength ▸ hf.xTriggerLevelBytes ▸ h.trigger_lt, fun hm hl => ?_,
    hf.writerOk h.writer, hnone, fun hx => absurd hnone hx⟩
  rw [hf.isMessageBuffer] at hm
  rw [hf.xLength] at hl
  have hb : b ≤ bytesToStoreMessageLength c s.sb := by
    have := hok.1
    rw [bytesToStoreMessageLength, if_pos hm]
    omega
  show heldLength r.1 = 0
  rw [heldLength_congr hf.xLength hhead (htail hb)]
  exact h.tiny hm hl

theorem reset_waits (h : Waits c s) : Waits c { s with sb := (xStreamBufferReset s.sb).1 } := by
  have hl := h.two_le
  unfold xStreamBufferReset
  split
  · rename_i hnone
    have hr : s.sb.xTaskWaitingToReceive = none := by simpa using hnone.1
    have hf : Framed s.sb (prvInitialiseNewStreamBuffer s.sb.pucBuffer s.sb.xLength s.sb.xTriggerLevelBytes
        s.sb.ucFlags) := ⟨rfl, rfl, rfl, hr.symm⟩
    refine ⟨⟨by show 0 < s.sb.xLength; omega, by show 0 < s.sb.xLength; omega, h.inv.fits⟩, hl, h.trigger_lt,
      fun _ _ => ?_, hf.writerOk h.writer, hf.readerOk h.reader, fun hx => absurd rfl hx⟩
    simp [heldLength, prvInitialiseNewStreamBuffer]
  · exact h

theorem setTriggerLevel_waits (h : Waits c s) (n : Nat) :
    Waits c { s with sb := (xStreamBufferSetTriggerLevel s.sb n).1 } := by
  simp only [xStreamBufferSetTriggerLevel]
  generalize (if n = 0 then 1 else n) = level
  split
  · rename_i hlt
    refine ⟨⟨h.inv.head_lt, h.inv.tail_lt, h.inv.fits⟩, h.two_le, hlt, h.tiny, ?_, ?_, h.awake⟩
    · have hw := h.writer
      revert hw
      show WriterOk c s.sb s.writer → WriterOk c _ s.writer
      cases s.writer <;> exact id
    · have hr := h.reader
      revert hr
      show ReaderOk s.sb s.reader → ReaderOk _ s.reader
      cases s.reader <;> exact id
  · exact h

/-! ## Runs -/

/-- An interrupt checks no overflow; but its data and the `StreamBuffer_t`, which is larger than a
length, are in memory together. -/
def Event.Valid (c : Board) : Event Task → Prop
  | .sendFromISR d => d.length + c.lengthBytes < 2 ^ c.sizeBits
  | _ => True

instance (e : Event Task) : Decidable (e.Valid c) := by
  cases e <;> unfold Event.Valid <;> infer_instance

theorem step_waits (h : Waits c s) {e : Event Task} (he : e.Valid c) {s' : Sys Task}
    (hgo : step c s e = some s') : Waits c s' := by
  obtain ⟨sb, writer, reader⟩ := s
  cases e with
  | send task d blocks =>
    cases writer with
    | idle =>
      obtain ⟨r, hr, rfl⟩ := map_eq_some_iff.mp hgo
      exact startSend_waits h rfl hr
    | waiting | writing | written => cases hgo
  | sendFromISR d =>
    cases writer with
    | idle =>
      cases hgo
      refine h.goOn (fun n hn => by cases hn) ?_ sb.xTaskWaitingToSend
      refine ⟨spaces_le h.inv, fun hm => ?_⟩
      rw [if_pos hm, addw_of_lt he]
    | waiting | writing | written => cases hgo
  | resumeSend timedOut =>
    cases writer with
    | waiting task d xSpace req =>
      obtain ⟨r, hr, rfl⟩ := map_eq_some_iff.mp hgo
      exact resumeSend_waits h rfl hr
    | idle | writing | written => cases hgo
  | write =>
    cases writer with
    | writing d xSpace req =>
      obtain ⟨r, hr, rfl⟩ := map_eq_some_iff.mp hgo
      exact write_waits h rfl hr
    | idle | waiting | written => cases hgo
  | completeSend =>
    cases writer with
    | written n =>
      cases hgo
      exact endSend_waits h rfl
    | idle | waiting | writing => cases hgo
  | receive task n blocks =>
    cases reader with
    | idle =>
      obtain ⟨r, hr, rfl⟩ := map_eq_some_iff.mp hgo
      exact startReceive_waits h rfl hr
    | waiting | reading => cases hgo
  | receiveFromISR n =>
    cases reader with
    | idle =>
      cases hgo
      exact h.readOn_of_idle rfl n
    | waiting | reading => cases hgo
  | resumeReceive =>
    cases reader with
    | waiting n =>
      cases hgo
      exact resumeReceive_waits h n
    | idle | reading => cases hgo
  | completeReceive =>
    cases reader with
    | reading n b =>
      obtain ⟨r, hr, rfl⟩ := map_eq_some_iff.mp hgo
      exact endReceive_waits h rfl hr
    | idle | waiting => cases hgo
  | reset =>
    cases hgo
    exact reset_waits h
  | setTriggerLevel n =>
    cases hgo
    exact setTriggerLevel_waits h n

theorem run_waits {es : List (Event Task)} (h : Waits c s) (hes : ∀ e ∈ es, e.Valid c) {s' : Sys Task}
    (hgo : run c s es = some s') : Waits c s' := by
  induction es generalizing s with
  | nil =>
    cases hgo
    exact h
  | cons e es ih =>
    obtain ⟨s1, hs1, hgo⟩ := bind_eq_some_iff.mp hgo
    exact ih (step_waits h (hes e (List.mem_cons_self ..)) hs1) (fun x hx => hes x (List.mem_cons_of_mem _ hx)) hgo

/-- A new buffer, from either constructor, with the size and the trigger level asked for. -/
inductive Created (c : Board) (xBufferSizeBytes xTriggerLevelBytes : Nat) :
    (isStatic : Bool) → StreamBuffer Task → Prop
  | dynamic {pucBuffer : Nat → UInt8} {found isMessage : Bool} {sb : StreamBuffer Task} :
      xStreamBufferGenericCreate c pucBuffer found xBufferSizeBytes xTriggerLevelBytes isMessage = some (some sb) →
      Created c xBufferSizeBytes xTriggerLevelBytes false sb
  | static {pucBuffer : Nat → UInt8} {isMessage : Bool} {sb : StreamBuffer Task} :
      xStreamBufferGenericCreateStatic c pucBuffer xBufferSizeBytes xTriggerLevelBytes isMessage = some sb →
      Created c xBufferSizeBytes xTriggerLevelBytes true sb

theorem fresh_waits {pucBuffer : Nat → UInt8} {xLength xTriggerLevelBytes : Nat} {ucFlags : BitVec 8}
    (hl : 2 ≤ xLength) (hfits : 2 * xLength ≤ 2 ^ c.sizeBits) (hlevel : xTriggerLevelBytes < xLength) :
    Waits c (unused (prvInitialiseNewStreamBuffer pucBuffer xLength xTriggerLevelBytes ucFlags :
      StreamBuffer Task)) := by
  refine ⟨⟨?_, ?_, hfits⟩, hl, hlevel, fun _ _ => ?_, trivial, rfl, fun hx => absurd rfl hx⟩
  · show 0 < xLength
    omega
  · show 0 < xLength
    omega
  · simp [unused, heldLength, prvInitialiseNewStreamBuffer]

/-- What the constructors set up: only static creation may leave a trigger level that the buffer
never reaches. -/
theorem Created.waits {size level : Nat} {isStatic : Bool} (h : Created c size level isStatic sb)
    (hsize : size < 2 ^ c.sizeBits) (hlevel : isStatic → level < size)
    (hfits : sb.xLength ≤ 2 ^ (c.sizeBits - 1)) : Waits c (unused sb) := by
  have hp : 2 ^ c.sizeBits = 2 * 2 ^ (c.sizeBits - 1) := by
    rw [← Nat.pow_succ', Nat.succ_eq_add_one, Nat.sub_add_cancel c.bits_pos]
  have hpos := c.length_pos
  cases h with
  | dynamic hgo =>
    simp only [xStreamBufferGenericCreate, bind, pure, bind_eq_some_iff] at hgo
    obtain ⟨_, hmin, _, hle, hgo⟩ := hgo
    have hmin := of_configAssert hmin
    have hle := of_configAssert hle
    split at hgo
    · have hsum : addw c.sizeBits size 1 = size + 1 := by
        have hlt := addw_lt c.sizeBits (addw c.sizeBits size 1) c.structSize
        exact addw_of_lt (by omega)
      rw [hsum] at hgo
      cases hgo
      have hfits : size + 1 ≤ 2 ^ (c.sizeBits - 1) := hfits
      have hbytes : 0 < size := by split at hmin <;> omega
      exact fresh_waits (by omega) (by omega) (by split <;> omega)
    · cases hgo
  | static hgo =>
    simp only [xStreamBufferGenericCreateStatic, bind, pure, bind_eq_some_iff] at hgo
    obtain ⟨_, hle, _, hmin, hgo⟩ := hgo
    have hmin := of_configAssert hmin
    cases hgo
    have hfits : size ≤ 2 ^ (c.sizeBits - 1) := hfits
    have hlevel := hlevel rfl
    exact fresh_waits (by omega) (by omega) (by split <;> omega)

/-- **No reader sleeps on a full buffer**, if it can reach its trigger level and its length is at most half of
the range of `size_t`: when a send returns and leaves no space, no task is registered to receive. -/
theorem no_reader_on_full_buffer {size level : Nat} {isStatic : Bool} (hc : Created c size level isStatic sb)
    (hsize : size < 2 ^ c.sizeBits) (hlevel : isStatic → level < size)
    (hfits : sb.xLength ≤ 2 ^ (c.sizeBits - 1)) {es : List (Event Task)} (hes : ∀ e ∈ es, e.Valid c)
    {s s' : Sys Task} (hrun : run c (unused sb) es = some s) (hsend : step c s .completeSend = some s')
    (hfull : xStreamBufferSpacesAvailable c s'.sb = 0) : s'.sb.xTaskWaitingToReceive = none := by
  have h := run_waits (hc.waits hsize hlevel hfits) hes hrun
  have h' := step_waits h (e := .completeSend) trivial hsend
  have hidle : s'.writer = .idle := by
    simp only [step] at hsend
    split at hsend <;> cases hsend
    rfl
  rw [xStreamBufferSpacesAvailable_eq h'.inv] at hfull
  by_contra hreg
  rcases h'.awake hreg with hroom | ⟨n, _, hn⟩
  · omega
  · rw [hidle] at hn
    cases hn

/-- A reader waits, and a send fills the buffer up to its trigger level. -/
def fillAtLevel : List (Event Unit) := [.receive () 4 true, .send () [1, 2, 3] false, .write]

/-- A new static stream buffer of 4 bytes on a target with a 16-bit `size_t`. -/
def staticBuffer (level : Nat) (h : level ≤ 4) : StreamBuffer Unit :=
  (xStreamBufferGenericCreateStatic board16 (fun _ => 0) 4 level false).get (by
    simp [xStreamBufferGenericCreateStatic, bind, board16, configAssert, h])

theorem created_staticBuffer (level : Nat) (h : level ≤ 4) :
    Created board16 4 level true (staticBuffer level h) := .static (some_get _).symm

theorem no_reader_on_full_buffer_four :
    ∃ s s', run board16 (unused (staticBuffer 3 (by decide))) fillAtLevel = some s ∧
      step board16 s .completeSend = some s' ∧
      xStreamBufferSpacesAvailable board16 s'.sb = 0 ∧ s'.sb.xTaskWaitingToReceive = none := by
  refine ⟨_, _, Lib.Runs.and_then rfl fun hrun => Lib.Runs.and_then rfl fun hsend => Lib.Runs.and_then rfl fun hfull => ?_⟩
  exact no_reader_on_full_buffer (created_staticBuffer 3 (by decide)) (by decide) (by decide) (by decide) (by decide)
    hrun hsend hfull

/-- With a trigger level of all 4 bytes, of which 3 can be held, the reader is left waiting. -/
theorem reader_left_on_full_buffer :
    Created board16 4 4 true (staticBuffer 4 (by decide)) ∧
    ∃ s s', run board16 (unused (staticBuffer 4 (by decide))) fillAtLevel = some s ∧
      step board16 s .completeSend = some s' ∧
      xStreamBufferSpacesAvailable board16 s'.sb = 0 ∧ s'.sb.xTaskWaitingToReceive = some () := by
  refine ⟨created_staticBuffer 4 (by decide), ?_⟩
  set s := (run board16 (unused (staticBuffer 4 (by decide))) fillAtLevel).get (by decide +kernel) with hs
  set s' := (step board16 s .completeSend).get (by decide +kernel) with hs'
  exact ⟨s, s', (some_get _).symm, (some_get _).symm, by decide +kernel, by decide +kernel⟩

end RtosKernel.FreeRTOS.Stream
