import RtosKernel.FreeRTOS.StreamBufferFifo

/-! # Message buffers deliver messages intact and in order

A message is written as two copies and read as two, but head and tail move once, so that the bytes held are
whole messages between any two calls. -/
namespace RtosKernel.FreeRTOS.Stream
open Lib.Word Lib.Window FreeRTOS.Def List Option

variable {Task : Type} {c : Board} {sb : StreamBuffer Task} {data m : List UInt8} {msgs : List (List UInt8)}

/-! ## The stored length -/

theorem lengthOfBytes_map (k : Nat) : ∀ n, lengthOfBytes ((range k).map fun i => UInt8.ofNat (n >>> (8 * i))) =
    n % 256 ^ k := by
  induction k with
  | zero => intro n; simp [lengthOfBytes, Nat.mod_one]
  | succ k ih =>
    intro n
    have hshift : ∀ i, n >>> (8 * (i + 1)) = (n >>> 8) >>> (8 * i) := fun i => by
      rw [← Nat.shiftRight_add, Nat.mul_add, Nat.add_comm]
    rw [range_succ_eq_map, map_cons, List.map_map, lengthOfBytes]
    simp only [Function.comp_def, Nat.succ_eq_add_one, hshift, ih]
    have hbyte : (UInt8.ofNat (n >>> (8 * 0))).toNat = n % 256 := by simp
    rw [hbyte, Nat.shiftRight_eq_div_pow, Nat.pow_succ' (n := k), Nat.mod_mul]

theorem lengthOfBytes_lengthToBytes (n : Nat) : lengthOfBytes (lengthToBytes c n) = n % 256 ^ c.lengthBytes :=
  lengthOfBytes_map c.lengthBytes n

def encodeMessage (c : Board) (m : List UInt8) : List UInt8 := lengthToBytes c m.length ++ m

/-- Messages as they are stored, the oldest first. -/
def encode (c : Board) (msgs : List (List UInt8)) : List UInt8 := msgs.flatMap (encodeMessage c)

/-- The messages in the buffer: none is empty, and the stored lengths are the real ones. -/
structure Stored (c : Board) (sb : StreamBuffer Task) (msgs : List (List UInt8)) : Prop where
  held_eq : held sb = encode c msgs
  nonempty : ∀ m ∈ msgs, m ≠ []
  short : ∀ m ∈ msgs, m.length < 256 ^ c.lengthBytes

/-! ## Sending -/

section Calls
variable (h : Inv c sb) (hm : sb.IsMessageBuffer)
include h hm

theorem xStreamBufferSend_full (hd : data.length + c.lengthBytes < 2 ^ c.sizeBits)
    (hfull : sb.xLength - 1 - heldLength sb < data.length + c.lengthBytes) :
    xStreamBufferSend c sb data = some (sb, 0) := by
  obtain ⟨b, hreq⟩ := requiredSpace_message hm hd
  simp only [xStreamBufferSend, hreq, bind, bind_some, xStreamBufferSpacesAvailable_eq h,
    prvWriteMessageToBuffer, if_pos hm, if_neg (Nat.not_le.mpr hfull), pure]
  rfl

theorem xStreamBufferSend_empty (hroom : c.lengthBytes ≤ sb.xLength - 1 - heldLength sb) :
    xStreamBufferSend c sb [] =
      some ({ sb with pucBuffer := store sb.pucBuffer sb.xLength sb.xHead (lengthToBytes c 0) }, 0) := by
  have hpos := c.length_pos
  have hfits := h.fits
  have hlt := h.head_lt
  have hd : ([] : List UInt8).length + c.lengthBytes < 2 ^ c.sizeBits := by
    rw [length_nil]; omega
  obtain ⟨b, hreq⟩ := requiredSpace_message hm hd
  simp only [length_nil, Nat.zero_add] at hreq
  simp only [xStreamBufferSend, length_nil, hreq, bind, bind_some,
    xStreamBufferSpacesAvailable_eq h, prvWriteMessageToBuffer, if_pos hm, if_pos hroom, pure]
  rw [prvWriteBytesToBuffer_eq (by omega) (by rw [length_lengthToBytes]; omega) hlt
    (by rw [length_lengthToBytes]; omega) (by rw [length_lengthToBytes]; omega)]
  rfl

theorem prvWriteMessageToBuffer_message {data : List UInt8} (hne : data ≠ [])
    (hroom : data.length + c.lengthBytes ≤ sb.xLength - 1 - heldLength sb) :
    prvWriteMessageToBuffer c sb data (xStreamBufferSpacesAvailable c sb) (data.length + c.lengthBytes) =
      some (appended (appended sb (lengthToBytes c data.length)) data, data.length) := by
  have hpos := c.length_pos
  have hlen : 0 < data.length := length_pos_iff.mpr hne
  have hfits := h.fits
  have hlt := h.head_lt
  have hnext : (sb.xHead + (lengthToBytes c data.length).length) % sb.xLength < sb.xLength :=
    Nat.mod_lt _ (by omega)
  simp only [xStreamBufferSpacesAvailable_eq h, prvWriteMessageToBuffer, if_pos hm, if_pos hroom, bind, pure]
  rw [prvWriteBytesToBuffer_eq (by omega) (by rw [length_lengthToBytes]; omega) hlt
    (by rw [length_lengthToBytes]; omega) (by rw [length_lengthToBytes]; omega)]
  simp only [bind_some]
  rw [if_pos (by omega), take_length, prvWriteBytesToBuffer_eq]
  · rfl
  · show sb.xLength < _
    omega
  · omega
  · exact hnext
  · exact hlen
  · show _ ≤ sb.xLength
    omega

theorem xStreamBufferSend_message {data : List UInt8} (hne : data ≠ [])
    (hroom : data.length + c.lengthBytes ≤ sb.xLength - 1 - heldLength sb) :
    ∃ sb', xStreamBufferSend c sb data = some (sb', data.length) ∧ Inv c sb' ∧ Kept sb sb' ∧
      held sb' = held sb ++ encodeMessage c data := by
  have hfits := h.fits
  have hpos := c.length_pos
  have hd : data.length + c.lengthBytes < 2 ^ c.sizeBits := by omega
  obtain ⟨b, hreq⟩ := requiredSpace_message hm hd
  set first := appended sb (lengthToBytes c data.length)
  have hi : Inv c first := appended_inv h
  have hheld : held first = held sb ++ lengthToBytes c data.length :=
    held_appended h (by rw [length_lengthToBytes]; omega)
  have hfirst : heldLength first = heldLength sb + c.lengthBytes := by
    rw [← length_held, hheld, length_append, length_held, length_lengthToBytes]
  simp only [xStreamBufferSend, hreq, prvWriteMessageToBuffer_message h hm hne hroom, bind, pure, bind_some]
  refine ⟨_, rfl, endSend_inv (appended_inv hi) _, (kept_appended.trans kept_appended).trans (kept_endSend _), ?_⟩
  have hroom' : heldLength first + data.length < first.xLength := by
    rw [hfirst]
    show _ < sb.xLength
    omega
  rw [held_endSend, held_appended hi hroom', hheld, append_assoc]
  rfl

omit h in
theorem xStreamBufferSend_overflow (hd : 2 ^ c.sizeBits ≤ data.length + c.lengthBytes) :
    xStreamBufferSend c sb data = none := by
  simp only [xStreamBufferSend, requiredSpace_overflow hm hd, bind]
  rfl

theorem held_of_send_zero {sb' : StreamBuffer Task} (hgo : xStreamBufferSend c sb data = some (sb', 0)) :
    held sb' = held sb := by
  rcases Nat.lt_or_ge (data.length + c.lengthBytes) (2 ^ c.sizeBits) with hd | hd
  · rcases Nat.lt_or_ge (sb.xLength - 1 - heldLength sb) (data.length + c.lengthBytes) with hfull | hroom
    · rw [xStreamBufferSend_full h hm hd hfull] at hgo
      cases hgo
      rfl
    · by_cases hne : data = []
      · subst hne
        rw [length_nil, Nat.zero_add] at hroom
        rw [xStreamBufferSend_empty h hm hroom] at hgo
        cases hgo
        have hlt := heldLength_lt h
        exact window_store_head h (by rw [length_lengthToBytes]; omega) (Nat.le_refl _)
      · obtain ⟨sb1, hgo', -⟩ := xStreamBufferSend_message h hm hne hroom
        rw [hgo'] at hgo
        simp only [some.injEq, Prod.mk.injEq, length_eq_zero_iff] at hgo
        exact absurd hgo.2 hne
  · rw [xStreamBufferSend_overflow hm hd] at hgo
    cases hgo

/-! ## Receiving -/

omit hm in
theorem xStreamBufferReceive_none (hnil : held sb = []) (n : Nat) : xStreamBufferReceive c sb n = some (sb, []) := by
  have h0 : heldLength sb = 0 := by rw [← length_held, hnil]; rfl
  simp only [xStreamBufferReceive, endReceive, prvBytesInBuffer_eq h, h0]
  rw [if_neg (by omega)]

end Calls

section Receive
variable {rest : List UInt8} (hheld : held sb = encodeMessage c m ++ rest)
include hheld

theorem heldLength_message : heldLength sb = c.lengthBytes + m.length + rest.length := by
  rw [← length_held, hheld, length_append, encodeMessage, length_append, length_lengthToBytes]

variable (h : Inv c sb)
include h

theorem prvReadBytesFromBuffer_length : prvReadBytesFromBuffer c sb c.lengthBytes sb.xTail =
    some (lengthToBytes c m.length, (sb.xTail + c.lengthBytes) % sb.xLength) := by
  have hlen := heldLength_message hheld
  have hlt := heldLength_lt h
  have hpos := c.length_pos
  rw [prvReadBytesFromBuffer_eq h.fits h.tail_lt (by omega) (by omega)]
  have htake := congrArg (List.take c.lengthBytes) hheld
  rw [held, window_take, Nat.min_eq_left (by omega), encodeMessage, append_assoc,
    take_left' (length_lengthToBytes _)] at htake
  rw [htake]

omit h in
theorem window_message : window sb.pucBuffer sb.xLength ((sb.xTail + c.lengthBytes) % sb.xLength) m.length = m := by
  have hlen := heldLength_message hheld
  have hdrop : ((held sb).drop c.lengthBytes).take m.length = m := by
    rw [hheld, encodeMessage, append_assoc, drop_left' (length_lengthToBytes _), take_left' rfl]
  rw [held, window_drop (by omega), window_take, Nat.min_eq_left (by omega)] at hdrop
  rw [window_mod, hdrop]

theorem xStreamBufferReceive_message (hm : sb.IsMessageBuffer) (hne : m ≠ [])
    (hshort : m.length < 256 ^ c.lengthBytes) (n : Nat) : xStreamBufferReceive c sb n =
      if m.length ≤ n then some (sbReceiveCompleted (taken sb (c.lengthBytes + m.length)), m)
      else some (sb, []) := by
  have hlen := heldLength_message hheld
  have hlt := heldLength_lt h
  have hfits := h.fits
  have hpos : 0 < m.length := length_pos_iff.mpr hne
  simp only [xStreamBufferReceive, endReceive, prvBytesInBuffer_eq h, bytesToStoreMessageLength, if_pos hm]
  rw [if_pos (by omega)]
  simp only [prvReadMessageFromBuffer, if_pos hm, prvReadBytesFromBuffer_length hheld h, bind, pure,
    bind_some, lengthOfBytes_lengthToBytes, Nat.mod_eq_of_lt hshort]
  rw [subw_of_le (by omega) (by omega)]
  by_cases hn : m.length ≤ n
  · rw [if_neg (Nat.not_lt.mpr hn), if_pos hn, Nat.min_eq_left (by omega), if_pos (by omega),
      prvReadBytesFromBuffer_eq h.fits (Nat.mod_lt _ (by omega)) (by omega) (by omega),
      window_message hheld]
    simp only [bind_some]
    rw [if_pos (by omega), Nat.mod_add_mod, Nat.add_assoc]
    rfl
  · rw [if_pos (Nat.lt_of_not_le hn), if_neg hn]
    simp

end Receive

/-! ## Runs -/

inductive MessageCall where
  | send (pvTxData : List UInt8)
  | receive (xBufferLengthBytes : Nat)
  deriving DecidableEq

def MessageCall.toCall : MessageCall → Call
  | .send d => .send d
  | .receive n => .receive n

/-- The messages that sends accepted, in order. -/
def accepted : List (MessageCall × Out) → List (List UInt8)
  | [] => []
  | (.send d, out) :: log => (if out.ret = 0 then [] else [d]) ++ accepted log
  | (.receive _, _) :: log => accepted log

/-- The messages that receives handed over, in order. -/
def received : List (MessageCall × Out) → List (List UInt8)
  | [] => []
  | (.send _, _) :: log => received log
  | (.receive _, out) :: log => (if out.ret = 0 then [] else [out.bytes]) ++ received log

/-- A call the assertions admit, whose message has a length that
`configMESSAGE_BUFFER_LENGTH_TYPE` holds if it can be stored at all. -/
def MessageCall.Fits (c : Board) (xLength : Nat) : MessageCall → Prop
  | .send d => d.length + c.lengthBytes < 2 ^ c.sizeBits ∧
      (d.length < 256 ^ c.lengthBytes ∨ xLength - 1 < d.length + c.lengthBytes)
  | .receive _ => True

instance (xLength : Nat) (k : MessageCall) : Decidable (k.Fits c xLength) := by
  cases k <;> unfold MessageCall.Fits <;> infer_instance

/-- A message buffer of `xLength` bytes between two calls. -/
structure Ready (c : Board) (xLength : Nat) (sb : StreamBuffer Task) (msgs : List (List UInt8)) : Prop
    extends Inv c sb, Stored c sb msgs where
  length_eq : sb.xLength = xLength
  message : sb.IsMessageBuffer

variable {xLength : Nat}

theorem Ready.kept {sb' : StreamBuffer Task} {msgs' : List (List UInt8)}
    (h : Ready c xLength sb msgs) (hi : Inv c sb') (hk : Kept sb sb') (hs : Stored c sb' msgs') :
    Ready c xLength sb' msgs' where
  toInv := hi
  toStored := hs
  length_eq := hk.xLength.trans h.length_eq
  message := hk.isMessageBuffer.mpr h.message

theorem fresh_ready (pucBuffer : Nat → UInt8) (xTriggerLevelBytes : Nat) {ucFlags : BitVec 8}
    (hl : 0 < xLength) (hfits : 2 * xLength ≤ 2 ^ c.sizeBits) (hm : ucFlags &&& flagsIsMessageBuffer ≠ 0) :
    Ready c xLength (prvInitialiseNewStreamBuffer pucBuffer xLength xTriggerLevelBytes ucFlags : StreamBuffer Task)
      [] where
  head_lt := hl
  tail_lt := hl
  fits := hfits
  held_eq := by simp [held, heldLength, prvInitialiseNewStreamBuffer, encode]
  nonempty := by simp
  short := by simp
  length_eq := rfl
  message := hm

theorem send_ready (h : Ready c xLength sb msgs) (hd : (MessageCall.send data).Fits c xLength) :
    ∃ sb' n, xStreamBufferSend c sb data = some (sb', n) ∧
      Ready c xLength sb' (msgs ++ if n = 0 then [] else [data]) := by
  have hl := h.length_eq
  rcases Nat.lt_or_ge (sb.xLength - 1 - heldLength sb) (data.length + c.lengthBytes) with hfull | hroom
  · refine ⟨sb, 0, xStreamBufferSend_full h.toInv h.message hd.1 hfull, ?_⟩
    rw [if_pos rfl, List.append_nil]
    exact h
  · by_cases hne : data = []
    · subst hne
      rw [length_nil, Nat.zero_add] at hroom
      have hgo := xStreamBufferSend_empty h.toInv h.message hroom
      have hheld := held_of_send_zero h.toInv h.message hgo
      refine ⟨_, 0, hgo, ?_⟩
      rw [if_pos rfl, List.append_nil]
      exact h.kept ⟨h.head_lt, h.tail_lt, h.fits⟩ ⟨rfl, rfl, rfl, id, id⟩
        ⟨hheld.trans h.held_eq, h.nonempty, h.short⟩
    · obtain ⟨sb', hgo, hi, hk, hheld⟩ := xStreamBufferSend_message h.toInv h.message hne hroom
      have hshort : data.length < 256 ^ c.lengthBytes := hd.2.resolve_right (by omega)
      refine ⟨sb', data.length, hgo, ?_⟩
      rw [if_neg (by simpa using hne)]
      refine h.kept hi hk ⟨?_, fun m hm => ?_, fun m hm => ?_⟩
      · rw [hheld, h.held_eq, encode, encode, flatMap_append, flatMap_singleton]
      · rcases mem_append.mp hm with hm | hm
        · exact h.nonempty m hm
        · exact mem_singleton.mp hm ▸ hne
      · rcases mem_append.mp hm with hm | hm
        · exact h.short m hm
        · exact mem_singleton.mp hm ▸ hshort

theorem receive_ready (h : Ready c xLength sb msgs) (n : Nat) :
    ∃ sb' m msgs', xStreamBufferReceive c sb n = some (sb', m) ∧ Ready c xLength sb' msgs' ∧
      msgs = (if m.length = 0 then [] else [m]) ++ msgs' := by
  cases msgs with
  | nil => exact ⟨sb, [], [], xStreamBufferReceive_none h.toInv h.held_eq n, h, rfl⟩
  | cons m msgs =>
    have hne := h.nonempty m (mem_cons_self ..)
    have hheld : held sb = encodeMessage c m ++ encode c msgs := h.held_eq
    have hgo := xStreamBufferReceive_message hheld h.toInv h.message hne (h.short m (mem_cons_self ..)) n
    have hlen := heldLength_message hheld
    by_cases hn : m.length ≤ n
    · rw [if_pos hn] at hgo
      have hrest := held_taken h.toInv (show c.lengthBytes + m.length ≤ heldLength sb by omega)
      rw [hheld, drop_left' (by simp [encodeMessage])] at hrest
      refine ⟨_, m, msgs, hgo, h.kept ⟨h.head_lt, (taken_inv h.toInv _).tail_lt, h.fits⟩
        ⟨rfl, rfl, rfl, id, fun _ => rfl⟩ ⟨hrest, fun x hx => h.nonempty x (mem_cons_of_mem _ hx),
        fun x hx => h.short x (mem_cons_of_mem _ hx)⟩, ?_⟩
      rw [if_neg (by simpa using hne)]
      rfl
    · rw [if_neg hn] at hgo
      exact ⟨sb, [], m :: msgs, hgo, h, rfl⟩

theorem call_ready (h : Ready c xLength sb msgs) {k : MessageCall} (hk : k.Fits c xLength) :
    ∃ sb' out msgs', call c sb k.toCall = some (sb', out) ∧ Ready c xLength sb' msgs' ∧
      msgs ++ accepted [(k, out)] = received [(k, out)] ++ msgs' := by
  cases k with
  | send d =>
    obtain ⟨sb', n, hgo, hr⟩ := send_ready h hk
    refine ⟨sb', .sent n, _, by simp only [MessageCall.toCall, call, hgo, map_some], hr, ?_⟩
    simp only [accepted, received, Out.sent, List.append_nil, nil_append]
    rfl
  | receive n =>
    obtain ⟨sb', m, msgs', hgo, hr, hmsgs⟩ := receive_ready h n
    refine ⟨sb', .received m, _, by simp only [MessageCall.toCall, call, hgo, map_some], hr, ?_⟩
    simp only [accepted, received, Out.received, List.append_nil]
    exact hmsgs

theorem accepted_cons (x : MessageCall × Out) (log : List (MessageCall × Out)) :
    accepted (x :: log) = accepted [x] ++ accepted log := by
  obtain ⟨_ | _, _⟩ := x <;> simp [accepted]

theorem received_cons (x : MessageCall × Out) (log : List (MessageCall × Out)) :
    received (x :: log) = received [x] ++ received log := by
  obtain ⟨_ | _, _⟩ := x <;> simp [received]

/-- **Runs keep every accepted message, received or stored.** -/
theorem calls_ready (h : Ready c xLength sb msgs) {ks : List MessageCall} (hks : ∀ k ∈ ks, k.Fits c xLength) :
    ∃ sb' outs msgs', calls c sb (ks.map MessageCall.toCall) = some (sb', outs) ∧ Ready c xLength sb' msgs' ∧
      msgs ++ accepted (ks.zip outs) = received (ks.zip outs) ++ msgs' := by
  induction ks generalizing sb msgs with
  | nil => exact ⟨sb, [], msgs, rfl, h, by simp [accepted, received]⟩
  | cons k ks ih =>
    obtain ⟨sb1, out, msgs1, hgo, h1, hm1⟩ := call_ready h (hks k (mem_cons_self ..))
    obtain ⟨sb2, outs, msgs2, hgo2, h2, hm2⟩ := ih h1 fun x hx => hks x (mem_cons_of_mem _ hx)
    refine ⟨sb2, out :: outs, msgs2, ?_, h2, ?_⟩
    · simp only [map_cons, calls, hgo, hgo2, bind, bind_some]
      rfl
    · rw [zip_cons_cons, accepted_cons, received_cons, ← append_assoc, hm1, append_assoc, hm2, append_assoc]

/-- **Message buffers deliver in order.** After every run of sends and receives, the accepted messages are those
received and then those stored; a receive that has no room for the next message changes nothing, and a send that
returns 0 changes nothing held. -/
theorem messages_delivered {xLength : Nat} (hl : 0 < xLength) (hfits : xLength ≤ 2 ^ (c.sizeBits - 1))
    (pucBuffer : Nat → UInt8) (xTriggerLevelBytes : Nat) {ucFlags : BitVec 8}
    (hm : ucFlags &&& flagsIsMessageBuffer ≠ 0) {ks : List MessageCall} (hks : ∀ k ∈ ks, k.Fits c xLength) :
    ∃ (sb : StreamBuffer Task) (outs : List Out) (msgs : List (List UInt8)),
      calls c (prvInitialiseNewStreamBuffer pucBuffer xLength xTriggerLevelBytes ucFlags)
        (ks.map MessageCall.toCall) = some (sb, outs) ∧
      Stored c sb msgs ∧ accepted (ks.zip outs) = received (ks.zip outs) ++ msgs ∧
      (∀ m ∈ msgs.head?, ∀ n < m.length, xStreamBufferReceive c sb n = some (sb, [])) ∧
      (∀ d sb', xStreamBufferSend c sb d = some (sb', 0) → held sb' = held sb) := by
  have hp : 2 ^ c.sizeBits = 2 * 2 ^ (c.sizeBits - 1) := by
    rw [← Nat.pow_succ', Nat.succ_eq_add_one, Nat.sub_add_cancel c.bits_pos]
  have h0 : Ready c xLength (prvInitialiseNewStreamBuffer pucBuffer xLength xTriggerLevelBytes ucFlags :
      StreamBuffer Task) [] := fresh_ready _ _ hl (by omega) hm
  obtain ⟨sb, outs, msgs, hgo, h, hmsgs⟩ := calls_ready h0 hks
  refine ⟨sb, outs, msgs, hgo, h.toStored, hmsgs, fun m hm n hn => ?_, fun d sb' hs =>
    held_of_send_zero h.toInv h.message hs⟩
  obtain ⟨rest, rfl⟩ : ∃ rest, msgs = m :: rest := List.head?_eq_some_iff.mp hm
  rw [xStreamBufferReceive_message h.held_eq h.toInv h.message (h.nonempty m (mem_cons_self ..))
    (h.short m (mem_cons_self ..)), if_neg (by omega)]

/-- A target with a 32-bit `size_t` and a length type of `lengthBytes` bytes. -/
def board32 (lengthBytes : Nat) (hpos : 0 < lengthBytes) (hle : lengthBytes ≤ 4) : Board where
  sizeBits := 32
  lengthBytes := lengthBytes
  structSize := 36
  bits_pos := by decide
  length_pos := hpos
  length_le := by omega

theorem messages_delivered_two :
    ∃ (sb : StreamBuffer Unit) (outs : List Out) (msgs : List (List UInt8)),
      calls (board32 2 (by decide) (by decide)) (prvInitialiseNewStreamBuffer (fun _ => 0) 10 1 1)
        ([MessageCall.send [1, 2], .receive 1, .send [3], .receive 5].map MessageCall.toCall) = some (sb, outs) ∧
      Stored (board32 2 (by decide) (by decide)) sb msgs ∧
      accepted ([MessageCall.send [1, 2], .receive 1, .send [3], .receive 5].zip outs) =
        received ([MessageCall.send [1, 2], .receive 1, .send [3], .receive 5].zip outs) ++ msgs ∧
      (∀ m ∈ msgs.head?, ∀ n < m.length,
        xStreamBufferReceive (board32 2 (by decide) (by decide)) sb n = some (sb, [])) ∧
      (∀ d sb', xStreamBufferSend (board32 2 (by decide) (by decide)) sb d = some (sb', 0) →
        held sb' = held sb) :=
  messages_delivered (by decide) (by decide) (fun _ => 0) 1 (by decide) (by decide)

/-- A length type of one byte keeps 1 of the length 257: one byte is received as a message. -/
theorem message_cut_to_one_byte :
    (calls (board32 1 (by decide) (by decide))
        (prvInitialiseNewStreamBuffer (fun _ => 0) 300 1 1 : StreamBuffer Unit)
        ([MessageCall.send (replicate 257 7), .receive 300].map MessageCall.toCall)).map Prod.snd =
      some [.sent 257, .received [7]] ∧
    ¬ received ([MessageCall.send (replicate 257 7), .receive 300].zip [.sent 257, .received [7]]) <+:
      accepted ([MessageCall.send (replicate 257 7), .receive 300].zip [.sent 257, .received [7]]) := by
  constructor
  · decide +kernel
  · decide +kernel

end RtosKernel.FreeRTOS.Stream
