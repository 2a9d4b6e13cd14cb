import RtosKernel.FreeRTOS.StreamBuffer

/-! # Stream buffers refine a bounded byte FIFO

As long as `2 * xLength` is a `size_t` no sum of the counting functions overflows, a write appends to the bytes
held, and a read removes the oldest of them. -/
namespace RtosKernel.FreeRTOS.Stream
open Lib.Word Lib.Window FreeRTOS.Def List Option

variable {Task : Type} {c : Board} {sb : StreamBuffer Task} {data : List UInt8}

/-! ## The bytes held -/

/-- How many bytes lie between the tail and the head. -/
def heldLength (sb : StreamBuffer Task) : Nat := (sb.xHead + sb.xLength - sb.xTail) % sb.xLength

/-- The bytes between the tail and the head. -/
def held (sb : StreamBuffer Task) : List UInt8 :=
  window sb.pucBuffer sb.xLength sb.xTail (heldLength sb)

@[simp] theorem length_held : (held sb).length = heldLength sb := length_window ..

/-- Head and tail are places of the buffer, and no sum of two of them with the length overflows. -/
structure Inv (c : Board) (sb : StreamBuffer Task) : Prop where
  head_lt : sb.xHead < sb.xLength
  tail_lt : sb.xTail < sb.xLength
  fits : 2 * sb.xLength ≤ 2 ^ c.sizeBits

theorem heldLength_eq (h : sb.xHead < sb.xLength) (ht : sb.xTail < sb.xLength) :
    heldLength sb = if sb.xTail ≤ sb.xHead then sb.xHead - sb.xTail
      else sb.xHead + sb.xLength - sb.xTail := by
  rw [heldLength, mod_of_lt_two (by omega)]
  split <;> split <;> omega

theorem heldLength_lt (h : Inv c sb) : heldLength sb < sb.xLength :=
  Nat.mod_lt _ (Nat.zero_lt_of_lt h.head_lt)

theorem head_eq (h : Inv c sb) : sb.xHead = (sb.xTail + heldLength sb) % sb.xLength := by
  obtain ⟨hh, ht, _⟩ := h
  rw [heldLength_eq hh ht]
  split
  · rw [Nat.mod_eq_of_lt] <;> omega
  · rw [mod_of_lt_two (by omega), if_neg] <;> omega

theorem prvBytesInBuffer_eq (h : Inv c sb) : prvBytesInBuffer c sb = heldLength sb := by
  obtain ⟨hh, ht, hw⟩ := h
  rw [heldLength_eq hh ht]
  simp only [prvBytesInBuffer]
  rw [addw_of_lt (by omega), subw_of_le (by omega) (by omega)]
  split
  · rw [subw_of_le (by omega) (by omega)]
    split <;> omega
  · split <;> omega

theorem xStreamBufferSpacesAvailable_eq (h : Inv c sb) :
    xStreamBufferSpacesAvailable c sb = sb.xLength - 1 - heldLength sb := by
  obtain ⟨hh, ht, hw⟩ := h
  rw [heldLength_eq hh ht]
  simp only [xStreamBufferSpacesAvailable]
  rw [addw_of_lt (by omega), subw_of_le (a := sb.xLength + sb.xTail) (by omega) (by omega),
    subw_of_le (by omega) (by omega)]
  split
  · rw [subw_of_le (by omega) (by omega)]
    split <;> omega
  · split <;> omega

/-! ## Writing and reading -/

/-- `data` behind the bytes held. -/
def appended (sb : StreamBuffer Task) (data : List UInt8) : StreamBuffer Task :=
  { sb with
    pucBuffer := store sb.pucBuffer sb.xLength sb.xHead data
    xHead := (sb.xHead + data.length) % sb.xLength }

/-- The oldest `n` bytes gone. -/
def taken (sb : StreamBuffer Task) (n : Nat) : StreamBuffer Task :=
  { sb with xTail := (sb.xTail + n) % sb.xLength }

theorem prvWriteBytesToBuffer_eq {pos : Nat} (hw : sb.xLength < 2 ^ c.sizeBits)
    (hsum : pos + data.length < 2 ^ c.sizeBits) (hp : pos < sb.xLength) (hpos : 0 < data.length)
    (hle : data.length ≤ sb.xLength) :
    prvWriteBytesToBuffer c sb data pos =
      some ({ sb with pucBuffer := store sb.pucBuffer sb.xLength pos data },
        (pos + data.length) % sb.xLength) := by
  have hfirst : subw c.sizeBits sb.xLength pos = sb.xLength - pos := subw_of_le hp.le (by omega)
  have hhead : addw c.sizeBits pos data.length = pos + data.length := addw_of_lt (by omega)
  have hwrap : (if pos + data.length ≥ sb.xLength then subw c.sizeBits (pos + data.length) sb.xLength
      else pos + data.length) = (pos + data.length) % sb.xLength := by
    rw [mod_of_lt_two (by omega)]
    split
    · rw [subw_of_le (by omega) (by omega), if_neg (by omega)]
    · rw [if_pos (by omega)]
  have hin : addw c.sizeBits pos (min (sb.xLength - pos) data.length) ≤ sb.xLength := by
    rw [addw_of_lt (by omega)]; omega
  simp only [prvWriteBytesToBuffer, configAssert_of hpos, bind, bind_some, hfirst, hhead, hwrap,
    configAssert_of hin]
  by_cases hbig : data.length > sb.xLength - pos
  · rw [Nat.min_eq_left hbig.le, if_pos hbig, configAssert_of (by omega)]
    rfl
  · rw [Nat.min_eq_right (by omega), if_neg (by omega), take_length, store_of_le (by omega)]
    rfl

theorem prvReadBytesFromBuffer_eq {n pos : Nat} (hw : 2 * sb.xLength ≤ 2 ^ c.sizeBits)
    (hp : pos < sb.xLength) (hpos : n ≠ 0) (hle : n ≤ sb.xLength) :
    prvReadBytesFromBuffer c sb n pos =
      some (window sb.pucBuffer sb.xLength pos n, (pos + n) % sb.xLength) := by
  have hfirst : subw c.sizeBits sb.xLength pos = sb.xLength - pos := subw_of_le hp.le (by omega)
  have htail : addw c.sizeBits pos n = pos + n := addw_of_lt (by omega)
  have hwrap : (if pos + n ≥ sb.xLength then subw c.sizeBits (pos + n) sb.xLength else pos + n) =
      (pos + n) % sb.xLength := by
    rw [mod_of_lt_two (by omega)]
    split
    · rw [subw_of_le (by omega) (by omega), if_neg (by omega)]
    · rw [if_pos (by omega)]
  have hin : addw c.sizeBits pos (min (sb.xLength - pos) n) ≤ sb.xLength := by
    rw [addw_of_lt (by omega)]; omega
  simp only [prvReadBytesFromBuffer, configAssert_of hpos, bind, bind_some, hfirst, htail, hwrap,
    configAssert_of hin, configAssert_of (Nat.min_le_right (sb.xLength - pos) n)]
  congr 2
  by_cases hbig : n > sb.xLength - pos
  · -- the bytes up to the end of the buffer, then those from its start
    rw [Nat.min_eq_left hbig.le, if_pos hbig]
    conv_rhs => rw [show n = (sb.xLength - pos) + (n - (sb.xLength - pos)) by omega, window_add]
    rw [window_linear (by omega), ← window_mod, show pos + (sb.xLength - pos) = sb.xLength by omega,
      Nat.mod_self, window_linear (by omega)]
    simp
  · rw [Nat.min_eq_right (by omega), if_neg (by omega), window_linear (by omega)]

section Moves
variable (h : Inv c sb)
include h

theorem appended_inv : Inv c (appended sb data) where
  head_lt := Nat.mod_lt _ (Nat.zero_lt_of_lt h.head_lt)
  tail_lt := h.tail_lt
  fits := h.fits

theorem taken_inv (n : Nat) : Inv c (taken sb n) where
  head_lt := h.head_lt
  tail_lt := Nat.mod_lt _ (Nat.zero_lt_of_lt h.head_lt)
  fits := h.fits

theorem heldLength_appended (hd : heldLength sb + data.length < sb.xLength) :
    heldLength (appended sb data) = heldLength sb + data.length := by
  have ha : Inv c (appended sb data) := appended_inv h
  have hh : (appended sb data).xHead = (sb.xHead + data.length) % sb.xLength := rfl
  rw [heldLength_eq h.head_lt h.tail_lt] at hd ⊢
  rw [heldLength_eq ha.head_lt ha.tail_lt, hh]
  show (if sb.xTail ≤ _ then _ - sb.xTail else _ + sb.xLength - sb.xTail) = _
  have htl := h.tail_lt
  rw [mod_of_lt_two (by split at hd <;> omega)]
  split at hd <;> split <;> split <;> omega

theorem held_appended (hd : heldLength sb + data.length < sb.xLength) :
    held (appended sb data) = held sb ++ data := by
  rw [held, heldLength_appended h hd]
  show window (store sb.pucBuffer sb.xLength sb.xHead data) sb.xLength sb.xTail _ = _
  rw [head_eq h, window_append h.tail_lt hd.le]
  rfl

theorem heldLength_taken {n : Nat} (hn : n ≤ heldLength sb) : heldLength (taken sb n) = heldLength sb - n := by
  have ha := taken_inv h n
  have ht : (taken sb n).xTail = (sb.xTail + n) % sb.xLength := rfl
  have hlen := heldLength_lt h
  rw [heldLength_eq h.head_lt h.tail_lt] at hn hlen ⊢
  rw [heldLength_eq ha.head_lt ha.tail_lt, ht]
  show (if _ ≤ sb.xHead then sb.xHead - _ else sb.xHead + sb.xLength - _) = _
  have hlt := h.head_lt
  have htl := h.tail_lt
  rw [mod_of_lt_two (by split at hn <;> omega)]
  split at hn <;> split <;> split <;> omega

theorem held_taken {n : Nat} (hn : n ≤ heldLength sb) : held (taken sb n) = (held sb).drop n := by
  rw [held, held, heldLength_taken h hn, window_drop hn]
  show window sb.pucBuffer sb.xLength ((sb.xTail + n) % sb.xLength) _ = _
  rw [window_mod]

theorem window_store_head {len : Nat} (hd : heldLength sb + data.length < sb.xLength) (hlen : len ≤ heldLength sb) :
    window (store sb.pucBuffer sb.xLength sb.xHead data) sb.xLength sb.xTail len =
      window sb.pucBuffer sb.xLength sb.xTail len := by
  have hall := held_appended h hd
  rw [held, heldLength_appended h hd] at hall
  have htake := congrArg (List.take len) hall
  rw [window_take, take_append_of_le_length (by simpa using hlen), held, window_take,
    Nat.min_eq_left (by omega), Nat.min_eq_left hlen] at htake
  exact htake

theorem appended_nil : appended sb [] = sb := by
  simp only [appended, length_nil, Nat.add_zero, Nat.mod_eq_of_lt h.head_lt]
  rw [store_of_le (by simp), memcpy_nil]

theorem taken_zero : taken sb 0 = sb := by
  simp only [taken, Nat.add_zero, Nat.mod_eq_of_lt h.tail_lt]

end Moves

/-! ## The ends of the calls

Sending and receiving change what a stream buffer holds and which tasks wait for it,
and nothing else. -/

/-- The same buffer but for the bytes held, and no task registered anew. -/
structure Kept (sb sb' : StreamBuffer Task) : Prop where
  xLength : sb'.xLength = sb.xLength
  xTriggerLevelBytes : sb'.xTriggerLevelBytes = sb.xTriggerLevelBytes
  ucFlags : sb'.ucFlags = sb.ucFlags
  receive : sb.xTaskWaitingToReceive = none → sb'.xTaskWaitingToReceive = none
  send : sb.xTaskWaitingToSend = none → sb'.xTaskWaitingToSend = none

theorem Kept.refl (sb : StreamBuffer Task) : Kept sb sb := ⟨rfl, rfl, rfl, id, id⟩

theorem Kept.trans {sb' sb'' : StreamBuffer Task} (h : Kept sb sb') (h' : Kept sb' sb'') : Kept sb sb'' where
  xLength := h'.xLength.trans h.xLength
  xTriggerLevelBytes := h'.xTriggerLevelBytes.trans h.xTriggerLevelBytes
  ucFlags := h'.ucFlags.trans h.ucFlags
  receive hr := h'.receive (h.receive hr)
  send hs := h'.send (h.send hs)

theorem kept_appended : Kept sb (appended sb data) := ⟨rfl, rfl, rfl, id, id⟩

theorem kept_taken (n : Nat) : Kept sb (taken sb n) := ⟨rfl, rfl, rfl, id, id⟩

theorem kept_endSend (n : Nat) : Kept sb (endSend c sb n) := by
  unfold endSend
  split
  · exact ⟨rfl, rfl, rfl, fun _ => rfl, id⟩
  · exact .refl sb

@[simp] theorem held_endSend (n : Nat) : held (endSend c sb n) = held sb := by
  unfold endSend; split <;> rfl

theorem endSend_inv (h : Inv c sb) (n : Nat) : Inv c (endSend c sb n) := by
  unfold endSend
  split
  · exact ⟨h.head_lt, h.tail_lt, h.fits⟩
  · exact h

theorem Kept.isMessageBuffer {sb' : StreamBuffer Task} (h : Kept sb sb') :
    sb'.IsMessageBuffer ↔ sb.IsMessageBuffer := by
  unfold StreamBuffer.IsMessageBuffer
  rw [h.ucFlags]

@[simp] theorem length_lengthToBytes (n : Nat) : (lengthToBytes c n).length = c.lengthBytes := by
  simp [lengthToBytes]

theorem requiredSpace_message {data : List UInt8} (hm : sb.IsMessageBuffer)
    (hd : data.length + c.lengthBytes < 2 ^ c.sizeBits) :
    ∃ b, requiredSpace c sb data.length = some (data.length + c.lengthBytes, b) := by
  have := c.length_pos
  simp only [requiredSpace, if_pos hm, addw_of_lt hd, bind]
  rw [configAssert_of (by omega)]
  exact ⟨_, rfl⟩

theorem requiredSpace_overflow {data : List UInt8} (hm : sb.IsMessageBuffer)
    (hd : 2 ^ c.sizeBits ≤ data.length + c.lengthBytes) : requiredSpace c sb data.length = none := by
  have hk : c.lengthBytes < 2 ^ c.sizeBits :=
    lt_of_le_of_lt (by have := c.length_le; omega) Nat.lt_two_pow_self
  have hsum : ¬ addw c.sizeBits data.length c.lengthBytes > data.length := by
    have hlt := addw_lt c.sizeBits data.length c.lengthBytes
    by_cases hbig : 2 ^ c.sizeBits ≤ data.length
    · omega
    · rw [addw, Nat.mod_eq_sub_mod hd, Nat.mod_eq_of_lt (by omega)]
      omega
  simp only [requiredSpace, if_pos hm, bind, configAssert, if_neg hsum]
  rfl

/-! ## Stream buffers -/

section Stream
variable (h : Inv c sb) (hm : ¬ sb.IsMessageBuffer)
include h hm

theorem prvWriteMessageToBuffer_stream (xRequiredSpace : Nat) :
    prvWriteMessageToBuffer c sb data (xStreamBufferSpacesAvailable c sb) xRequiredSpace =
      some (appended sb (data.take (sb.xLength - 1 - heldLength sb)),
        min data.length (sb.xLength - 1 - heldLength sb)) := by
  rw [xStreamBufferSpacesAvailable_eq h]
  set space := sb.xLength - 1 - heldLength sb with hspace
  have hmin : (data.take (min data.length space)) = data.take space := by
    rw [Nat.min_comm, ← take_take, take_length]
  have hlen : (data.take space).length = min data.length space := by
    rw [length_take, Nat.min_comm]
  simp only [prvWriteMessageToBuffer, if_neg hm, bind, pure, bind_some]
  by_cases h0 : min data.length space = 0
  · rw [if_neg (by omega), eq_nil_of_length_eq_zero (hlen.trans h0), appended_nil h, h0]
  · have hfits := h.fits
    have hlt := h.head_lt
    rw [if_pos h0, hmin, prvWriteBytesToBuffer_eq (by omega) (by omega) hlt (by omega) (by omega)]
    rfl

/-- **Sending** appends what fits. -/
theorem xStreamBufferSend_stream (data : List UInt8) :
    ∃ sb', xStreamBufferSend c sb data = some (sb', min data.length (sb.xLength - 1 - heldLength sb)) ∧
      Inv c sb' ∧ Kept sb sb' ∧ held sb' = held sb ++ data.take (sb.xLength - 1 - heldLength sb) := by
  simp only [xStreamBufferSend, requiredSpace, if_neg hm, bind, bind_some, prvWriteMessageToBuffer_stream h hm]
  refine ⟨_, rfl, endSend_inv (appended_inv h) _, kept_appended.trans (kept_endSend _), ?_⟩
  have := heldLength_lt h
  rw [held_endSend, held_appended h (by rw [length_take]; omega)]

theorem xStreamBufferSendFromISR_stream : xStreamBufferSendFromISR c sb data = xStreamBufferSend c sb data := by
  simp only [xStreamBufferSendFromISR, xStreamBufferSend, requiredSpace, if_neg hm, bind, bind_some,
    prvWriteMessageToBuffer_stream h hm]

theorem prvReadMessageFromBuffer_stream (n : Nat) :
    prvReadMessageFromBuffer c sb n (prvBytesInBuffer c sb) =
      some (taken sb (min n (heldLength sb)), (held sb).take n) := by
  rw [prvBytesInBuffer_eq h, held, window_take]
  have hlt := heldLength_lt h
  simp only [prvReadMessageFromBuffer, if_neg hm, bind, pure, bind_some]
  by_cases h0 : min n (heldLength sb) = 0
  · rw [if_neg (by omega), h0, taken_zero h, window_zero]
  · rw [if_pos h0, prvReadBytesFromBuffer_eq h.fits h.tail_lt h0 (by omega)]
    rfl

/-- **Receiving** removes the oldest bytes. -/
theorem xStreamBufferReceive_stream (n : Nat) :
    ∃ sb', xStreamBufferReceive c sb n = some (sb', (held sb).take n) ∧
      Inv c sb' ∧ Kept sb sb' ∧ held sb' = (held sb).drop n := by
  simp only [xStreamBufferReceive, endReceive, bytesToStoreMessageLength, if_neg hm,
    prvReadMessageFromBuffer_stream h hm, bind, bind_some]
  have hdrop : (held sb).drop (min n (heldLength sb)) = (held sb).drop n := by
    rw [← length_held, drop_min_length]
  rw [prvBytesInBuffer_eq h]
  by_cases h0 : heldLength sb > 0
  · rw [if_pos h0]
    refine ⟨_, rfl, ?_⟩
    have hheld := held_taken h (Nat.min_le_right n (heldLength sb))
    rw [hdrop] at hheld
    split
    · exact ⟨⟨h.head_lt, (taken_inv h _).tail_lt, h.fits⟩, ⟨rfl, rfl, rfl, id, fun _ => rfl⟩, hheld⟩
    · exact ⟨taken_inv h _, kept_taken _, hheld⟩
  · have hnil : held sb = [] := eq_nil_of_length_eq_zero (by rw [length_held]; omega)
    rw [if_neg h0, hnil, List.take_nil, drop_nil]
    exact ⟨sb, rfl, h, .refl sb, hnil⟩

end Stream

/-! ## Runs -/

inductive Call where
  | send (pvTxData : List UInt8)
  | sendFromISR (pvTxData : List UInt8)
  | receive (xBufferLengthBytes : Nat)
  | receiveFromISR (xBufferLengthBytes : Nat)
  | reset

/-- What a call returns, and the bytes it hands over. -/
structure Out where
  ret : Nat
  bytes : List UInt8
  deriving DecidableEq, Repr

def Out.sent (n : Nat) : Out := ⟨n, []⟩

def Out.received (pvRxData : List UInt8) : Out := ⟨pvRxData.length, pvRxData⟩

def call (c : Board) (sb : StreamBuffer Task) : Call → Option (StreamBuffer Task × Out)
  | .send d => (xStreamBufferSend c sb d).map fun r => (r.1, .sent r.2)
  | .sendFromISR d => (xStreamBufferSendFromISR c sb d).map fun r => (r.1, .sent r.2)
  | .receive n => (xStreamBufferReceive c sb n).map fun r => (r.1, .received r.2)
  | .receiveFromISR n => (xStreamBufferReceiveFromISR c sb n).map fun r => (r.1, .received r.2)
  | .reset => let r := xStreamBufferReset sb; some (r.1, ⟨r.2.toNat, []⟩)

/-- A sequence of calls: the last state and the results in order. -/
def calls (c : Board) (sb : StreamBuffer Task) : List Call → Option (StreamBuffer Task × List Out)
  | [] => some (sb, [])
  | k :: ks => do
    let (sb, out) ← call c sb k
    let (sb, outs) ← calls c sb ks
    return (sb, out :: outs)

/-- One call on a FIFO of capacity `n` that holds `l`. -/
def fifoCall (n : Nat) (l : List UInt8) : Call → List UInt8 × Out
  | .send d | .sendFromISR d => (l ++ d.take (n - l.length), .sent (min d.length (n - l.length)))
  | .receive k | .receiveFromISR k => (l.drop k, .received (l.take k))
  | .reset => ([], ⟨1, []⟩)

def fifoCalls (n : Nat) (l : List UInt8) : List Call → List UInt8 × List Out
  | [] => (l, [])
  | k :: ks =>
    let r := fifoCall n l k
    let rest := fifoCalls n r.1 ks
    (rest.1, r.2 :: rest.2)

/-- A stream buffer of `xLength` bytes on which no task waits. -/
structure Idle (c : Board) (xLength : Nat) (sb : StreamBuffer Task) : Prop extends Inv c sb where
  length_eq : sb.xLength = xLength
  stream : ¬ sb.IsMessageBuffer
  receive : sb.xTaskWaitingToReceive = none
  send : sb.xTaskWaitingToSend = none

variable {xLength : Nat}

theorem Idle.kept {sb' : StreamBuffer Task} (h : Idle c xLength sb) (hi : Inv c sb')
    (hk : Kept sb sb') : Idle c xLength sb' where
  toInv := hi
  length_eq := hk.xLength.trans h.length_eq
  stream := fun hm => h.stream (hk.isMessageBuffer.mp hm)
  receive := hk.receive h.receive
  send := hk.send h.send

theorem fresh_idle (pucBuffer : Nat → UInt8) (xTriggerLevelBytes : Nat) {ucFlags : BitVec 8}
    (hl : 0 < xLength) (hfits : 2 * xLength ≤ 2 ^ c.sizeBits) (hm : ucFlags &&& flagsIsMessageBuffer = 0) :
    Idle c xLength (prvInitialiseNewStreamBuffer pucBuffer xLength xTriggerLevelBytes ucFlags : StreamBuffer Task) where
  head_lt := hl
  tail_lt := hl
  fits := hfits
  length_eq := rfl
  stream := fun h => h hm
  receive := rfl
  send := rfl

/-- **One call of the code is one call of the FIFO.** -/
theorem call_refines (h : Idle c xLength sb) (k : Call) :
    ∃ sb', call c sb k = some (sb', (fifoCall (xLength - 1) (held sb) k).2) ∧
      Idle c xLength sb' ∧ held sb' = (fifoCall (xLength - 1) (held sb) k).1 := by
  have hsend : ∀ d, ∃ sb', xStreamBufferSend c sb d =
      some (sb', min d.length (xLength - 1 - (held sb).length)) ∧ Idle c xLength sb' ∧
      held sb' = held sb ++ d.take (xLength - 1 - (held sb).length) := by
    intro d
    obtain ⟨sb', hgo, hi, hk, hheld⟩ := xStreamBufferSend_stream h.toInv h.stream d
    rw [h.length_eq, ← length_held] at hgo hheld
    exact ⟨sb', hgo, h.kept hi hk, hheld⟩
  have hreceive : ∀ n, ∃ sb', xStreamBufferReceive c sb n = some (sb', (held sb).take n) ∧
      Idle c xLength sb' ∧ held sb' = (held sb).drop n := by
    intro n
    obtain ⟨sb', hgo, hi, hk, hheld⟩ := xStreamBufferReceive_stream h.toInv h.stream n
    exact ⟨sb', hgo, h.kept hi hk, hheld⟩
  cases k with
  | send d =>
    obtain ⟨sb', hgo, hrest⟩ := hsend d
    exact ⟨sb', by simp only [call, hgo]; rfl, hrest⟩
  | sendFromISR d =>
    obtain ⟨sb', hgo, hrest⟩ := hsend d
    exact ⟨sb', by simp only [call, xStreamBufferSendFromISR_stream h.toInv h.stream, hgo]; rfl, hrest⟩
  | receive n =>
    obtain ⟨sb', hgo, hrest⟩ := hreceive n
    exact ⟨sb', by simp only [call, hgo]; rfl, hrest⟩
  | receiveFromISR n =>
    obtain ⟨sb', hgo, hrest⟩ := hreceive n
    have hsame : xStreamBufferReceiveFromISR c sb n = xStreamBufferReceive c sb n := rfl
    exact ⟨sb', by simp only [call, hsame, hgo]; rfl, hrest⟩
  | reset =>
    have hreset : xStreamBufferReset sb = (prvInitialiseNewStreamBuffer sb.pucBuffer xLength
        sb.xTriggerLevelBytes sb.ucFlags, true) := by
      rw [xStreamBufferReset, if_pos (by simp [h.receive, h.send]), h.length_eq]
    have hpos : 0 < xLength := h.length_eq ▸ Nat.zero_lt_of_lt h.head_lt
    have hstream := h.stream
    simp only [StreamBuffer.IsMessageBuffer, ne_eq, not_not] at hstream
    refine ⟨_, by simp only [call, hreset]; rfl, fresh_idle _ _ hpos (h.length_eq ▸ h.fits) hstream, ?_⟩
    simp [held, heldLength, prvInitialiseNewStreamBuffer, fifoCall]

/-- **A run of the code is a run of the FIFO.** -/
theorem calls_refine (h : Idle c xLength sb) (ks : List Call) :
    ∃ sb', calls c sb ks = some (sb', (fifoCalls (xLength - 1) (held sb) ks).2) ∧
      Idle c xLength sb' ∧ held sb' = (fifoCalls (xLength - 1) (held sb) ks).1 := by
  induction ks generalizing sb with
  | nil => exact ⟨sb, rfl, h, rfl⟩
  | cons k ks ih =>
    obtain ⟨sb1, hgo, h1, hheld⟩ := call_refines h k
    obtain ⟨sb2, hgo2, h2, hheld2⟩ := ih h1
    rw [hheld] at hgo2 hheld2
    refine ⟨sb2, ?_, h2, hheld2⟩
    simp only [calls, hgo, hgo2, bind, bind_some]
    rfl

/-- Every run of calls that do not wait, on a new stream buffer of `xLength` bytes, is one of the FIFO of
`xLength - 1` bytes with the same results. -/
def RefinesFifo (Task : Type) (c : Board) (xLength : Nat) : Prop :=
  ∀ (pucBuffer : Nat → UInt8) (xTriggerLevelBytes : Nat) (ucFlags : BitVec 8),
    ucFlags &&& flagsIsMessageBuffer = 0 → ∀ ks : List Call, ∃ (sb : StreamBuffer Task) (outs : List Out),
      calls c (prvInitialiseNewStreamBuffer pucBuffer xLength xTriggerLevelBytes ucFlags) ks = some (sb, outs) ∧
      fifoCalls (xLength - 1) [] ks = (held sb, outs) ∧ (held sb).length ≤ xLength - 1 ∧
      xStreamBufferSpacesAvailable c sb + xStreamBufferBytesAvailable c sb = xLength - 1 ∧
      (∀ d, xStreamBufferSendFromISR c sb d = xStreamBufferSend c sb d) ∧
      (∀ n, xStreamBufferReceiveFromISR c sb n = xStreamBufferReceive c sb n)

theorem refinesFifo_of_le (hl : 2 ≤ xLength) (hfits : 2 * xLength ≤ 2 ^ c.sizeBits) : RefinesFifo Task c xLength := by
  intro pucBuffer xTriggerLevelBytes ucFlags hm ks
  have h0 : Idle c xLength (prvInitialiseNewStreamBuffer pucBuffer xLength xTriggerLevelBytes ucFlags :
      StreamBuffer Task) := fresh_idle _ _ (by omega) hfits hm
  obtain ⟨sb, hgo, h, hheld⟩ := calls_refine h0 ks
  have hempty : held (prvInitialiseNewStreamBuffer pucBuffer xLength xTriggerLevelBytes ucFlags :
      StreamBuffer Task) = [] := by
    simp [held, heldLength, prvInitialiseNewStreamBuffer]
  have hlt := heldLength_lt h.toInv
  rw [h.length_eq] at hlt
  rw [hempty] at hgo hheld
  refine ⟨sb, _, hgo, by rw [hheld], by rw [length_held]; omega, ?_,
    fun d => xStreamBufferSendFromISR_stream h.toInv h.stream, fun _ => rfl⟩
  rw [xStreamBufferSpacesAvailable_eq h.toInv, xStreamBufferBytesAvailable, prvBytesInBuffer_eq h.toInv,
    h.length_eq]
  omega

section Overflow
variable {xLength : Nat} (pucBuffer : Nat → UInt8) (xTriggerLevelBytes : Nat) {ucFlags : BitVec 8}
  (hl : 2 ≤ xLength) (hw : xLength < 2 ^ c.sizeBits) (hm : ucFlags &&& flagsIsMessageBuffer = 0)
  (hd : data.length = xLength - 1)
include hl hw hm hd

theorem xStreamBufferSend_fill (sb : StreamBuffer Task)
    (hsb : sb = prvInitialiseNewStreamBuffer pucBuffer xLength xTriggerLevelBytes ucFlags) :
    xStreamBufferSend c sb data = some (endSend c (appended sb data) data.length, data.length) := by
  have hstream : ¬ sb.IsMessageBuffer := fun h => h (by rw [hsb]; exact hm)
  have hlen : sb.xLength = xLength := by rw [hsb]; rfl
  have hhead : sb.xHead = 0 := by rw [hsb]; rfl
  have htail : sb.xTail = 0 := by rw [hsb]; rfl
  have hspace : xStreamBufferSpacesAvailable c sb = data.length := by
    simp only [xStreamBufferSpacesAvailable, hlen, hhead, htail]
    rw [addw_of_lt (by omega), subw_of_le (a := xLength + 0) (by omega) (by omega),
      subw_of_le (by omega) (by omega), if_neg (by omega)]
    omega
  simp only [xStreamBufferSend, requiredSpace, if_neg hstream, bind, bind_some, hspace,
    prvWriteMessageToBuffer, pure, Nat.min_self]
  rw [if_pos (by omega), take_length, prvWriteBytesToBuffer_eq (by omega) (by omega) (by omega)
    (by omega) (by omega)]
  rfl

omit hm in
theorem counts_fill (hbig : 2 ^ c.sizeBits < 2 * xLength) (n : Nat) (sb : StreamBuffer Task)
    (hsb : sb = prvInitialiseNewStreamBuffer pucBuffer xLength xTriggerLevelBytes ucFlags) :
    xStreamBufferSpacesAvailable c (endSend c (appended sb data) n) = 0 ∧
      xStreamBufferBytesAvailable c (endSend c (appended sb data) n) = 2 * xLength - 1 - 2 ^ c.sizeBits := by
  set full := endSend c (appended sb data) n with hfull
  have hkept : Kept sb full := kept_appended.trans (kept_endSend n)
  have hlen : full.xLength = xLength := by rw [hkept.xLength, hsb]; rfl
  have htail : full.xTail = 0 := by rw [hfull, endSend, hsb]; split <;> rfl
  have hhead : full.xHead = xLength - 1 := by
    have hmod : (0 + data.length) % xLength = xLength - 1 := by
      rw [hd, Nat.zero_add, Nat.mod_eq_of_lt (by omega)]
    rw [hfull, endSend, hsb]
    split <;> exact hmod
  have hsum : addw c.sizeBits xLength (xLength - 1) = 2 * xLength - 1 - 2 ^ c.sizeBits := by
    rw [addw, show xLength + (xLength - 1) = 2 * xLength - 1 by omega, Nat.mod_eq_sub_mod (by omega)]
    exact Nat.mod_eq_of_lt (by omega)
  constructor
  · simp only [xStreamBufferSpacesAvailable, hlen, htail, hhead]
    rw [addw_of_lt (by omega), subw_of_le (a := xLength + 0) (by omega) (by omega),
      subw_of_le (by omega) (by omega), if_neg (by omega)]
    omega
  · simp only [xStreamBufferBytesAvailable, prvBytesInBuffer, hlen, htail, hhead, hsum]
    rw [subw_of_le (by omega) (by omega), if_neg (by omega), Nat.sub_zero]

end Overflow

theorem not_refinesFifo (hl : 2 ≤ xLength) (hw : xLength < 2 ^ c.sizeBits)
    (hbig : 2 ^ c.sizeBits < 2 * xLength) : ¬ RefinesFifo Task c xLength := by
  intro h
  have hm : (0 : BitVec 8) &&& flagsIsMessageBuffer = 0 := by decide
  have hd : (replicate (xLength - 1) (0 : UInt8)).length = xLength - 1 := length_replicate
  obtain ⟨sb, outs, hgo, _, _, hsum, _⟩ := h (fun _ => 0) 1 0 hm [.send (replicate (xLength - 1) 0)]
  simp only [calls, call, xStreamBufferSend_fill _ _ hl hw hm hd _ rfl, map_some, bind, pure,
    bind_some, some.injEq, Prod.mk.injEq, length_replicate] at hgo
  obtain ⟨hspaces, hbytes⟩ := counts_fill (fun _ => 0) 1 hl hw hd hbig (xLength - 1)
    (prvInitialiseNewStreamBuffer (fun _ => 0) xLength 1 0 : StreamBuffer Task) rfl
  rw [hgo.1] at hspaces hbytes
  omega

/-- **A stream buffer refines the byte FIFO exactly when it takes at most half of the range of
`size_t`.** -/
theorem refinesFifo_iff {xLength : Nat} (hl : 2 ≤ xLength) (hw : xLength < 2 ^ c.sizeBits) :
    RefinesFifo Task c xLength ↔ xLength ≤ 2 ^ (c.sizeBits - 1) := by
  have hp : 2 ^ c.sizeBits = 2 * 2 ^ (c.sizeBits - 1) := by
    rw [← Nat.pow_succ', Nat.succ_eq_add_one, Nat.sub_add_cancel c.bits_pos]
  constructor
  · intro h
    by_contra hlt
    exact not_refinesFifo hl hw (by omega) h
  · intro hle
    exact refinesFifo_of_le hl (by omega)

theorem board16_bits : 0 < 16 := by decide

/-- A target with a 16-bit `size_t`. -/
def board16 : Board where
  sizeBits := 16
  lengthBytes := 2
  structSize := 18
  bits_pos := board16_bits
  length_pos := by decide
  length_le := by decide

theorem refinesFifo_iff_ten : RefinesFifo Unit board16 10 ↔ 10 ≤ 2 ^ (board16.sizeBits - 1) :=
  refinesFifo_iff (by decide) (by decide)

/-- Of the 0x8000 bytes a stream buffer of 0x8001 bytes accepts, one is counted. -/
theorem stream_counts_one_of_half :
    (∃ sb : StreamBuffer Unit,
      calls board16 (prvInitialiseNewStreamBuffer (fun _ => 0) 0x8001 1 0) [.send (replicate 0x8000 0)] =
        some (sb, [.sent 0x8000]) ∧
      xStreamBufferSpacesAvailable board16 sb = 0 ∧ xStreamBufferBytesAvailable board16 sb = 1) ∧
    ¬ RefinesFifo Unit board16 0x8001 := by
  refine ⟨?_, not_refinesFifo (by decide) (by decide) (by decide)⟩
  have hm : (0 : BitVec 8) &&& flagsIsMessageBuffer = 0 := by decide
  have hd : (replicate 0x8000 (0 : UInt8)).length = 0x8001 - 1 := length_replicate
  refine ⟨_, ?_, counts_fill (fun _ => 0) 1 (by decide) (by decide) hd (by decide) 0x8000
    (prvInitialiseNewStreamBuffer (fun _ => 0) 0x8001 1 0) rfl⟩
  simp only [calls, call, xStreamBufferSend_fill (c := board16) _ _ (by decide) (by decide) hm hd _ rfl,
    map_some, bind, pure, bind_some, length_replicate]

end RtosKernel.FreeRTOS.Stream
