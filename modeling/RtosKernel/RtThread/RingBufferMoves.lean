import RtosKernel.RtThread.RingBuffer

/-! # The ring buffer in two moves

Under the invariant every function of `ringbuffer.c` is one of two moves, or one after the other: `skip` drops
the oldest bytes by moving the read position, and `append` stores bytes behind the newest and moves the write
position. -/
namespace RtosKernel.RtThread.RingBuffer
open Lib.Word Lib.Window RtThread.Def

variable {n k : Nat} {rb : RtRingbuffer} {data : List UInt8}

/-! ## The invariant and the represented bytes -/

/-- Both indices lie in the buffer, and the mirrors say which of them is ahead. -/
structure Inv (n : Nat) (rb : RtRingbuffer) : Prop where
  size : rb.bufferSize = n
  pos : 1 ≤ n
  bound : n ≤ 32767
  read : rb.readIndex < n
  write : rb.writeIndex < n
  mirror : (rb.readMirror = rb.writeMirror ∧ rb.readIndex ≤ rb.writeIndex) ∨
    (rb.readMirror = !rb.writeMirror ∧ rb.writeIndex ≤ rb.readIndex)

/-- The bytes the state represents, oldest first. -/
def contents (rb : RtRingbuffer) : List UInt8 :=
  window rb.bufferPtr rb.bufferSize rb.readIndex (rtRingbufferDataLen rb)

theorem rtRingbufferDataLen_eq (h : Inv n rb) :
    rtRingbufferDataLen rb = if rb.readMirror = rb.writeMirror then rb.writeIndex - rb.readIndex
      else n - rb.readIndex + rb.writeIndex := by
  obtain ⟨size, pos, bound, read, write, mirror⟩ := h
  unfold rtRingbufferDataLen rtRingbufferStatus
  rcases mirror with ⟨hm, hle⟩ | ⟨hm, hle⟩
  · by_cases he : rb.readIndex = rb.writeIndex
    · simp [he, hm]
    · simp [he, hm, show rb.readIndex < rb.writeIndex by omega, sub32_of_le hle (by omega)]
  · by_cases he : rb.readIndex = rb.writeIndex
    · simp [he, hm, size]; omega
    · have h1 : sub32 rb.readIndex rb.writeIndex = rb.readIndex - rb.writeIndex :=
        sub32_of_le hle (by omega)
      simp [he, hm, show ¬ rb.readIndex < rb.writeIndex by omega, h1, size,
        sub32_of_le (show rb.readIndex - rb.writeIndex ≤ n by omega) (by omega)]
      omega

theorem rtRingbufferDataLen_le (h : Inv n rb) : rtRingbufferDataLen rb ≤ n := by
  rw [rtRingbufferDataLen_eq h]
  obtain ⟨size, pos, bound, read, write, ⟨hm, hle⟩ | ⟨hm, hle⟩⟩ := h
  · simp [hm]; omega
  · simp [hm]; omega

theorem rtRingbufferSpaceLen_eq (h : Inv n rb) : rtRingbufferSpaceLen rb = n - rtRingbufferDataLen rb := by
  have := rtRingbufferDataLen_le h
  have := h.bound
  rw [rtRingbufferSpaceLen, h.size, sub32_of_le (by omega) (by omega)]

theorem writeIndex_eq (h : Inv n rb) : (rb.readIndex + rtRingbufferDataLen rb) % n = rb.writeIndex := by
  rw [rtRingbufferDataLen_eq h]
  obtain ⟨size, pos, bound, read, write, ⟨hm, hle⟩ | ⟨hm, hle⟩⟩ := h
  · simp only [hm, if_true]
    rw [show rb.readIndex + (rb.writeIndex - rb.readIndex) = rb.writeIndex by omega]
    exact Nat.mod_eq_of_lt write
  · rw [if_neg (by simp [hm]), show rb.readIndex + (n - rb.readIndex + rb.writeIndex) = rb.writeIndex + n by omega,
      Nat.add_mod_right]
    exact Nat.mod_eq_of_lt write

@[simp] theorem length_contents (rb : RtRingbuffer) :
    (contents rb).length = rtRingbufferDataLen rb := by simp [contents]

/-! ## The two moves -/

/-- A position `k` cells further: past the end of the buffer the mirror flips. -/
def advance (n : Nat) (mirror : Bool) (index k : Nat) : Bool × Nat :=
  if index + k < n then (mirror, index + k) else (!mirror, index + k - n)

/-- Drop the `k` oldest bytes. -/
def skip (rb : RtRingbuffer) (k : Nat) : RtRingbuffer :=
  { rb with
    readMirror := (advance rb.bufferSize rb.readMirror rb.readIndex k).1
    readIndex := (advance rb.bufferSize rb.readMirror rb.readIndex k).2 }

/-- Store `data` behind the newest byte. -/
def append (rb : RtRingbuffer) (data : List UInt8) : RtRingbuffer :=
  { rb with
    bufferPtr := store rb.bufferPtr rb.bufferSize rb.writeIndex data
    writeMirror := (advance rb.bufferSize rb.writeMirror rb.writeIndex data.length).1
    writeIndex := (advance rb.bufferSize rb.writeMirror rb.writeIndex data.length).2 }

theorem index15_of_lt {x : Nat} (h : x < 32768) : index15 x = x := Nat.mod_eq_of_lt h

section
variable {mirror : Bool} {index used : Nat}

theorem advance_lt (hlt : index < n) (hk : k ≤ n) : (advance n mirror index k).2 < n := by
  unfold advance
  split
  · assumption
  · omega

theorem advance_advance {l : Nat} (hlt : index < n) (hle : k + l ≤ n) :
    advance n (advance n mirror index k).1 (advance n mirror index k).2 l = advance n mirror index (k + l) := by
  by_cases hk : index + k < n
  · simp only [advance, if_pos hk, Nat.add_assoc]
  · simp only [advance, if_neg hk]
    rw [if_pos (by omega), if_neg (by omega), show index + k - n + l = index + (k + l) - n by omega]

/-- One cell further, as the code has it. -/
theorem advance_one (hlt : index < n) (hn : n ≤ 32767) :
    advance n mirror index 1 = if index = n - 1 then (!mirror, 0) else (mirror, index15 (index + 1)) := by
  unfold advance
  split
  · rw [if_neg (by omega), index15_of_lt (by omega)]
  · rw [if_pos (by omega), show index + 1 - n = 0 by omega]

/-- The write position is as far ahead of the read position as there are bytes. -/
theorem Inv.ahead (h : Inv n rb) :
    advance n rb.readMirror rb.readIndex (rtRingbufferDataLen rb) = (rb.writeMirror, rb.writeIndex) := by
  rw [rtRingbufferDataLen_eq h]
  obtain ⟨size, pos, bound, read, write, ⟨hm, hle⟩ | ⟨hm, hle⟩⟩ := h
  · rw [if_pos hm, advance, if_pos (by omega), hm, Nat.add_sub_cancel' hle]
  · rw [if_neg (by simp [hm]), advance, if_neg (by omega), hm, Bool.not_not]
    congr 1
    omega

theorem Inv.of_ahead (size : rb.bufferSize = n) (pos : 1 ≤ n) (bound : n ≤ 32767) (read : rb.readIndex < n) (hused : used ≤ n)
    (hahead : advance n rb.readMirror rb.readIndex used = (rb.writeMirror, rb.writeIndex)) :
    Inv n rb ∧ rtRingbufferDataLen rb = used := by
  unfold advance at hahead
  split at hahead <;> obtain ⟨hm, hi⟩ := Prod.mk.inj hahead
  · have hinv : Inv n rb := ⟨size, pos, bound, read, by omega, .inl ⟨hm, by omega⟩⟩
    refine ⟨hinv, ?_⟩
    rw [rtRingbufferDataLen_eq hinv, if_pos hm]
    omega
  · have hinv : Inv n rb := ⟨size, pos, bound, read, by omega, .inr ⟨by simp [← hm], by omega⟩⟩
    refine ⟨hinv, ?_⟩
    rw [rtRingbufferDataLen_eq hinv, if_neg (by simp [← hm])]
    omega

end

theorem skip_spec (h : Inv n rb) (hk : k ≤ rtRingbufferDataLen rb) :
    Inv n (skip rb k) ∧ rtRingbufferDataLen (skip rb k) = rtRingbufferDataLen rb - k := by
  have hle := rtRingbufferDataLen_le h
  refine Inv.of_ahead h.size h.pos h.bound ?_ (by omega) ?_
  · simp only [skip, h.size]
    exact advance_lt h.read (by omega)
  · simp only [skip, h.size]
    rw [advance_advance h.read (by omega), Nat.add_sub_cancel' hk]
    exact h.ahead

/-- **Dropping.** `skip` removes the oldest bytes and nothing else. -/
theorem contents_skip (h : Inv n rb)
    (hk : k ≤ rtRingbufferDataLen rb) : contents (skip rb k) = (contents rb).drop k := by
  have hn : rb.readIndex + k < 2 * n := by
    have := rtRingbufferDataLen_le h; have := h.read; omega
  have hr : (skip rb k).readIndex = (rb.readIndex + k) % n := by
    rw [mod_of_lt_two hn]
    simp only [skip, advance, h.size]
    split <;> rfl
  unfold contents
  rw [(skip_spec h hk).2, hr, window_drop hk]
  change window rb.bufferPtr rb.bufferSize _ _ = _
  rw [h.size, window_mod]

theorem append_spec (h : Inv n rb) (hd : rtRingbufferDataLen rb + data.length ≤ n) :
    Inv n (append rb data) ∧ rtRingbufferDataLen (append rb data) = rtRingbufferDataLen rb + data.length := by
  have hadd : advance n _ _ data.length = advance n rb.readMirror _ _ := advance_advance h.read hd
  rw [h.ahead] at hadd
  refine Inv.of_ahead h.size h.pos h.bound h.read hd ?_
  simp only [append, h.size]
  exact hadd.symm

/-- **Storing.** `append` adds the data behind the bytes already there. -/
theorem contents_append (h : Inv n rb) (hd : rtRingbufferDataLen rb + data.length ≤ n) :
    contents (append rb data) = contents rb ++ data := by
  have hw : window (store rb.bufferPtr n ((rb.readIndex + rtRingbufferDataLen rb) % n) data) n
      rb.readIndex (rtRingbufferDataLen rb + data.length) =
      window rb.bufferPtr n rb.readIndex (rtRingbufferDataLen rb) ++ data :=
    window_append h.read hd
  rw [writeIndex_eq h] at hw
  unfold contents
  rw [(append_spec h hd).2]
  change window (store rb.bufferPtr rb.bufferSize rb.writeIndex data) rb.bufferSize
    rb.readIndex _ = _
  rw [h.size]
  exact hw

/-! ## What each function does, in terms of the moves -/

theorem append_nil (h : Inv n rb) : append rb [] = rb := by
  obtain rfl := h.size
  simp [append, advance, store, h.write]

theorem skip_zero (h : Inv n rb) : skip rb 0 = rb := by
  obtain rfl := h.size
  simp [skip, advance, h.read]

theorem two_copies {buf : Nat → UInt8} {pos length : Nat} {ptr : List UInt8} (h : n - pos ≤ length) :
    memcpy (memcpy buf pos (ptr.take (n - pos))) 0 ((ptr.drop (n - pos)).take (length - (n - pos)))
      = store buf n pos (ptr.take length) := by
  rw [store, List.take_take, Nat.min_eq_left h, List.drop_take]

section
variable (h : Inv n rb)
include h

theorem rtRingbufferPut_eq (ptr : List UInt8) :
    rtRingbufferPut rb ptr = (append rb (ptr.take (n - rtRingbufferDataLen rb)),
      min (n - rtRingbufferDataLen rb) ptr.length) := by
  obtain rfl := h.size
  have hb := h.bound
  have hw := h.write
  have hle : rb.bufferSize - rtRingbufferDataLen rb ≤ rb.bufferSize := Nat.sub_le _ _
  unfold rtRingbufferPut
  simp only [rtRingbufferSpaceLen_eq h]
  rw [Nat.mod_eq_of_lt (by omega)]
  generalize rb.bufferSize - rtRingbufferDataLen rb = space at hle ⊢
  split
  · rename_i hz; simp [hz, append_nil h]
  · have hlen : (if space < ptr.length then space else ptr.length) = min space ptr.length := by
      split <;> omega
    have htake : ptr.take (min space ptr.length) = ptr.take space := by
      rw [← List.take_take, List.take_length]
    have hdata : (ptr.take space).length = min space ptr.length := List.length_take
    simp only [hlen]
    split
    · rw [htake, index15_of_lt (by omega), ← store_of_le (n := rb.bufferSize) (by omega)]
      simp only [append, advance, hdata,
        if_pos (show rb.writeIndex + min space ptr.length < rb.bufferSize by omega)]
    · rw [two_copies (by omega), htake, index15_of_lt (by omega)]
      simp only [append, advance, hdata,
        if_neg (show ¬ rb.writeIndex + min space ptr.length < rb.bufferSize by omega)]
      rw [show min space ptr.length - (rb.bufferSize - rb.writeIndex) =
        rb.writeIndex + min space ptr.length - rb.bufferSize by omega]

/-- `rt_ringbuffer_put_force` drops what the free space lacks, then appends. -/
theorem rtRingbufferPutForce_eq
    (ptr : List UInt8) :
    rtRingbufferPutForce rb ptr =
      (append (skip rb (min n ptr.length - (n - rtRingbufferDataLen rb)))
        (ptr.drop (ptr.length - n)), min n ptr.length) := by
  obtain rfl := h.size
  have hb := h.bound
  have hw := h.write
  have hr := h.read
  have hclip : (if ptr.length > rb.bufferSize then
      (ptr.drop (ptr.length - rb.bufferSize), rb.bufferSize) else (ptr, ptr.length)) =
      (ptr.drop (ptr.length - rb.bufferSize), min rb.bufferSize ptr.length) := by
    split
    · rw [Nat.min_eq_left (by omega)]
    · rw [Nat.min_eq_right (by omega), show ptr.length - rb.bufferSize = 0 by omega]; rfl
  have hlen : (ptr.drop (ptr.length - rb.bufferSize)).length = min rb.bufferSize ptr.length := by
    rw [List.length_drop]; omega
  have hmin : min rb.bufferSize ptr.length ≤ rb.bufferSize := Nat.min_le_left _ _
  unfold rtRingbufferPutForce
  simp only [hclip, rtRingbufferSpaceLen_eq h]
  have hdl := rtRingbufferDataLen_eq h
  generalize min rb.bufferSize ptr.length = len at hlen hmin ⊢
  generalize ptr.drop (ptr.length - rb.bufferSize) = data at hlen ⊢
  generalize rtRingbufferDataLen rb = used at hdl ⊢
  have htake : data.take len = data := List.take_of_length_le (by omega)
  rcases h.mirror with ⟨hm, hle⟩ | ⟨hm, hle⟩
  · rw [if_pos hm] at hdl
    split
    · have hskip : len - (rb.bufferSize - used) = 0 := by omega
      rw [htake, index15_of_lt (by omega), ← store_of_le (n := rb.bufferSize) (by omega),
        if_neg (by omega), hskip, skip_zero h]
      simp only [append, advance, hlen, if_pos (show rb.writeIndex + len < rb.bufferSize by omega)]
    · rw [two_copies (by omega), htake, index15_of_lt (by omega)]
      have hwi : len - (rb.bufferSize - rb.writeIndex) = rb.writeIndex + len - rb.bufferSize := by
        omega
      simp only [append, advance, skip, hlen, hwi, if_neg (show ¬ rb.writeIndex + len < rb.bufferSize by omega),
        if_pos (show rb.readIndex + (len - (rb.bufferSize - used)) < rb.bufferSize by omega)]
      congr 2
      · rw [if_neg (by omega)]
      · split <;> omega
  · rw [if_neg (by simp [hm])] at hdl
    split
    · rw [htake, index15_of_lt (by omega), ← store_of_le (n := rb.bufferSize) (by omega)]
      simp only [append, advance, skip, hlen, if_pos (show rb.writeIndex + len < rb.bufferSize by omega),
        if_pos (show rb.readIndex + (len - (rb.bufferSize - used)) < rb.bufferSize by omega)]
      congr 2
      split <;> omega
    · rw [two_copies (by omega), htake, index15_of_lt (by omega)]
      have hwi : len - (rb.bufferSize - rb.writeIndex) = rb.writeIndex + len - rb.bufferSize := by
        omega
      simp only [append, advance, skip, hlen, hwi, if_neg (show ¬ rb.writeIndex + len < rb.bufferSize by omega),
        if_neg (show ¬ rb.readIndex + (len - (rb.bufferSize - used)) < rb.bufferSize by omega)]
      congr 2
      · rw [if_pos (by omega)]
      · rw [if_pos (by omega)]; omega

theorem rtRingbufferGet_eq (length : Nat) :
    rtRingbufferGet rb length = (skip rb (min length (rtRingbufferDataLen rb)),
      min length (rtRingbufferDataLen rb), (contents rb).take length) := by
  obtain rfl := h.size
  have hb := h.bound
  have hr := h.read
  have hd := rtRingbufferDataLen_le h
  unfold rtRingbufferGet
  simp only [contents, window_take]
  generalize rtRingbufferDataLen rb = used at hd ⊢
  split
  · rename_i hz; simp [hz, skip_zero h]
  · have hlen : (if used < length then used else length) = min length used := by
      split <;> omega
    simp only [hlen]
    split
    · rw [index15_of_lt (by omega), window_linear (by omega)]
      simp only [skip, advance, if_pos (show rb.readIndex + min length used < rb.bufferSize by omega)]
    · have hsplit : min length used = (rb.bufferSize - rb.readIndex) +
          (min length used - (rb.bufferSize - rb.readIndex)) := by omega
      have hend : rb.readIndex + (rb.bufferSize - rb.readIndex) = 0 + rb.bufferSize := by omega
      have hbytes : window rb.bufferPtr rb.bufferSize rb.readIndex (min length used) =
          ((List.range (rb.bufferSize - rb.readIndex)).map fun i =>
            rb.bufferPtr (rb.readIndex + i)) ++
          (List.range (min length used - (rb.bufferSize - rb.readIndex))).map rb.bufferPtr := by
        conv_lhs => rw [hsplit, window_add, window_linear (by omega), hend]
        rw [← window_mod, Nat.add_mod_right, window_mod, window_linear (by omega)]
        simp
      rw [hbytes, index15_of_lt (by omega)]
      simp only [skip, advance, if_neg (show ¬ rb.readIndex + min length used < rb.bufferSize by omega)]
      rw [show min length used - (rb.bufferSize - rb.readIndex) =
        rb.readIndex + min length used - rb.bufferSize by omega]

/-- `rt_ringbuffer_peak` hands over, and removes, the bytes up to the end of the
buffer. -/
theorem rtRingbufferPeak_eq :
    rtRingbufferPeak rb =
      (skip rb (min (n - rb.readIndex) (rtRingbufferDataLen rb)),
        min (n - rb.readIndex) (rtRingbufferDataLen rb),
        (contents rb).take (n - rb.readIndex)) := by
  obtain rfl := h.size
  have hb := h.bound
  have hr := h.read
  have hd := rtRingbufferDataLen_le h
  unfold rtRingbufferPeak
  simp only [contents, window_take]
  generalize rtRingbufferDataLen rb = used at hd ⊢
  split
  · rename_i hz; simp [hz, skip_zero h]
  · split
    · rw [Nat.min_eq_right (by omega), index15_of_lt (by omega), window_linear (by omega)]
      simp only [skip, advance, if_pos (show rb.readIndex + used < rb.bufferSize by omega)]
    · rw [Nat.min_eq_left (by omega), window_linear (by omega)]
      simp only [skip, advance, if_neg
        (show ¬ rb.readIndex + (rb.bufferSize - rb.readIndex) < rb.bufferSize by omega)]
      rw [show rb.readIndex + (rb.bufferSize - rb.readIndex) - rb.bufferSize = 0 by omega]

theorem rtRingbufferPutchar_eq (ch : UInt8) :
    rtRingbufferPutchar rb ch = if rtRingbufferDataLen rb = n then (rb, 0)
      else (append rb [ch], 1) := by
  obtain rfl := h.size
  have hb := h.bound
  have hw := h.write
  have hd := rtRingbufferDataLen_le h
  unfold rtRingbufferPutchar
  rw [rtRingbufferSpaceLen_eq h]
  by_cases hfull : rtRingbufferDataLen rb = rb.bufferSize
  · rw [if_pos (by omega), if_pos hfull]
  · rw [if_neg (by omega), if_neg hfull]
    have hs : store rb.bufferPtr rb.bufferSize rb.writeIndex [ch] =
        memcpy rb.bufferPtr rb.writeIndex [ch] := store_of_le (by simp; omega)
    simp only [append, hs, List.length_singleton, advance_one hw hb]
    split <;> rfl

theorem rtRingbufferStatus_full : rtRingbufferStatus rb = .full ↔ rtRingbufferDataLen rb = n := by
  rw [rtRingbufferDataLen_eq h]
  obtain ⟨size, pos, bound, read, write, mirror⟩ := h
  unfold rtRingbufferStatus
  rcases mirror with ⟨hm, hle⟩ | ⟨hm, hle⟩
  · by_cases he : rb.readIndex = rb.writeIndex
    · simp [he, hm]; omega
    · simp [he, hm]; omega
  · by_cases he : rb.readIndex = rb.writeIndex
    · simp [he, hm]; omega
    · simp [he, hm]; omega

theorem rtRingbufferPutcharForce_eq (ch : UInt8) :
    rtRingbufferPutcharForce rb ch =
      (append (skip rb (if rtRingbufferDataLen rb = n then 1 else 0)) [ch], 1) := by
  obtain rfl := h.size
  have hb := h.bound
  have hw := h.write
  have hs : store rb.bufferPtr rb.bufferSize rb.writeIndex [ch] =
      memcpy rb.bufferPtr rb.writeIndex [ch] := store_of_le (by simp; omega)
  unfold rtRingbufferPutcharForce
  simp only [rtRingbufferStatus_full h]
  by_cases hfull : rtRingbufferDataLen rb = rb.bufferSize
  · -- full: both positions move on together
    have hri : rb.readIndex = rb.writeIndex := by
      have := rtRingbufferDataLen_eq h
      rcases h.mirror with ⟨hm, hle⟩ | ⟨hm, hle⟩
      · rw [if_pos hm] at this; omega
      · rw [if_neg (by simp [hm])] at this; omega
    simp only [if_pos hfull, append, skip, hs, hri, List.length_singleton, advance_one hw hb]
    split <;> rfl
  · simp only [if_neg hfull, skip_zero h, append, hs, List.length_singleton, advance_one hw hb]
    split <;> rfl

theorem rtRingbufferGetchar_eq :
    rtRingbufferGetchar rb = (skip rb (min 1 (rtRingbufferDataLen rb)),
      min 1 (rtRingbufferDataLen rb), (contents rb).take 1) := by
  obtain rfl := h.size
  have hb := h.bound
  have hr := h.read
  unfold rtRingbufferGetchar
  simp only [contents, window_take]
  by_cases hz : rtRingbufferDataLen rb = 0
  · simp [hz, skip_zero h]
  · rw [if_neg hz, Nat.min_eq_left (by omega), window_linear (by omega)]
    simp only [skip, advance_one hr hb]
    split <;> rfl

end

end RtosKernel.RtThread.RingBuffer
