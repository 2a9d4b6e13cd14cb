import RtosKernel.Lib.Word
import RtosKernel.Lib.RingRecords

/-! # The ring buffer (`ring_buffer.c`)

Bytes go in at the put indices and out at the get indices. The indices are 32-bit
words that are never reduced to the size of the buffer; a base that follows them in
steps of this size says where they point to. -/
namespace RtosKernel.Zephyr.RingBuffer
open Lib.Word Lib.Window

structure Indices where
  head : Nat
  tail : Nat
  base : Nat
  deriving DecidableEq

structure RingBuf where
  buffer : Nat → UInt8
  put : Indices
  get : Indices
  size : Nat

def ringBufInternalReset (buf : RingBuf) (value : Nat) : RingBuf :=
  let i := ⟨value % 2 ^ 32, value % 2 ^ 32, value % 2 ^ 32⟩
  { buf with put := i, get := i }

def ringBufIsEmpty (buf : RingBuf) : Bool := buf.get.head = buf.put.tail

def ringBufSpaceGet (buf : RingBuf) : Nat := sub32 buf.size (sub32 buf.put.head buf.get.tail)

def ringBufSizeGet (buf : RingBuf) : Nat := sub32 buf.put.tail buf.get.head

structure Region where
  off : Nat
  len : Nat
  deriving DecidableEq

/-- What `ring_buf_put_claim` and `ring_buf_get_claim` share; `limit` is how much there is to claim. -/
def claim (i : Indices) (bufSize limit size : Nat) : Indices × Region :=
  let wrapSize := sub32 i.head i.base
  -- the base is not yet adjusted
  let base := if wrapSize ≥ bufSize then add32 i.base bufSize else i.base
  let wrapSize := if wrapSize ≥ bufSize then sub32 wrapSize bufSize else wrapSize
  let wrapSize := sub32 bufSize wrapSize
  let size := min (min size limit) wrapSize
  ({ i with head := add32 i.head size }, ⟨sub32 i.head base, size⟩)

/-- What `ring_buf_put_finish` and `ring_buf_get_finish` share. -/
def finish (i : Indices) (bufSize size : Nat) : Option Indices :=
  if size > sub32 i.head i.tail then none
  else
    let tail := add32 i.tail size
    -- we wrapped: adjust the base
    some ⟨tail, tail, if sub32 tail i.base ≥ bufSize then add32 i.base bufSize else i.base⟩

def ringBufPutClaim (buf : RingBuf) (size : Nat) : RingBuf × Region :=
  let r := claim buf.put buf.size (ringBufSpaceGet buf) size
  ({ buf with put := r.1 }, r.2)

/-- `ring_buf_put_finish`; none is `-EINVAL`. -/
def ringBufPutFinish (buf : RingBuf) (size : Nat) : Option RingBuf :=
  (finish buf.put buf.size size).map fun i => { buf with put := i }

def ringBufGetClaim (buf : RingBuf) (size : Nat) : RingBuf × Region :=
  let r := claim buf.get buf.size (ringBufSizeGet buf) size
  ({ buf with get := r.1 }, r.2)

/-- `ring_buf_get_finish`; none is `-EINVAL`. -/
def ringBufGetFinish (buf : RingBuf) (size : Nat) : Option RingBuf :=
  (finish buf.get buf.size size).map fun i => { buf with get := i }

def bytesAt (buf : RingBuf) (r : Region) : List UInt8 := (List.range r.len).map fun i => buf.buffer (r.off + i)

/-- `memcpy` to a region. -/
def copyTo (buf : RingBuf) (r : Region) (data : List UInt8) : RingBuf :=
  { buf with buffer := memcpy buf.buffer r.off (data.take r.len) }

/-! ## One side

The tail of a side has made `t` steps since the reset to `value`, and the head is
`c` steps ahead. -/

variable {n value t c size limit : Nat} {i i' : Indices}

structure Tracks (n value : Nat) (i : Indices) (t c : Nat) : Prop where
  tail : i.tail = (value + t) % 2 ^ 32
  head : i.head = (value + t + c) % 2 ^ 32
  base : i.base = (value + (t - t % n)) % 2 ^ 32

theorem sub32_offset (value a b : Nat) (hb : b ≤ a) (hlt : a - b < 2 ^ 32) :
    sub32 ((value + a) % 2 ^ 32) ((value + b) % 2 ^ 32) = a - b := by
  unfold sub32
  omega

theorem add32_offset (value a b : Nat) : add32 ((value + a) % 2 ^ 32) b = (value + (a + b)) % 2 ^ 32 := by
  unfold add32
  omega

theorem mod_le_bound (hn : 0 < n) (t : Nat) : t % n < n ∧ t % n ≤ t := ⟨Nat.mod_lt t hn, Nat.mod_le t n⟩

theorem Tracks.start (n value : Nat) : Tracks n value ⟨value % 2 ^ 32, value % 2 ^ 32, value % 2 ^ 32⟩ 0 0 :=
  ⟨rfl, rfl, by simp⟩

section
variable (h : Tracks n value i t c)
include h

theorem Tracks.head_base (hn : 0 < n) (hsize : n < 2 ^ 31) (hc : c ≤ n) : sub32 i.head i.base = t % n + c := by
  obtain ⟨hlt, hle⟩ := mod_le_bound hn t
  rw [h.head, h.base, Nat.add_assoc, sub32_offset _ _ _ (by omega) (by omega)]
  omega

theorem Tracks.claim (hn : 0 < n) (hsize : n < 2 ^ 31) (hc : c ≤ n) :
    (claim i n limit size).2 = ⟨(t + c) % n, min (min size limit) (n - (t + c) % n)⟩ ∧
      Tracks n value (claim i n limit size).1 t (c + (claim i n limit size).2.len) := by
  obtain ⟨hlt, hle⟩ := mod_le_bound hn t
  have hoff : (t + c) % n = if t % n + c < n then t % n + c else t % n + c - n := by
    rw [← Nat.mod_add_mod, mod_of_lt_two (by omega)]
  have hhead := h.head_base hn hsize hc
  have hregion : (RingBuffer.claim i n limit size).2 = ⟨(t + c) % n, min (min size limit) (n - (t + c) % n)⟩ := by
    unfold RingBuffer.claim
    rw [hhead]
    by_cases hwrap : t % n + c < n
    · rw [if_pos hwrap] at hoff
      simp only [if_neg (show ¬ t % n + c ≥ n by omega), hhead, hoff]
      rw [sub32_of_le (by omega) (by omega)]
    · rw [if_neg hwrap] at hoff
      have hadjusted : sub32 i.head (add32 i.base n) = t % n + c - n := by
        rw [h.head, h.base, add32_offset, Nat.add_assoc, sub32_offset _ _ _ (by omega) (by omega)]
        omega
      simp only [if_pos (show t % n + c ≥ n by omega), hoff, hadjusted]
      rw [sub32_of_le (show n ≤ t % n + c by omega) (by omega), sub32_of_le (by omega) (by omega)]
  refine ⟨hregion, ?_⟩
  have hnew : (RingBuffer.claim i n limit size).1 = { i with head := add32 i.head (RingBuffer.claim i n limit size).2.len } :=
    rfl
  rw [hnew]
  refine ⟨h.tail, ?_, h.base⟩
  dsimp only
  rw [h.head, Nat.add_assoc, add32_offset]
  congr 1
  omega

theorem Tracks.finish_none (hsize : n < 2 ^ 31) (hc : c ≤ n) (hover : c < size) : finish i n size = none := by
  have hspace : sub32 i.head i.tail = c := by
    rw [h.head, h.tail, Nat.add_assoc, sub32_offset _ _ _ (by omega) (by omega)]
    omega
  rw [finish, hspace, if_pos hover]

theorem Tracks.finish (hn : 0 < n) (hsize : n < 2 ^ 31) (hc : c ≤ n) (hle : size ≤ c) :
    ∃ i', finish i n size = some i' ∧ Tracks n value i' (t + size) 0 := by
  obtain ⟨hlt, hmod⟩ := mod_le_bound hn t
  have hspace : sub32 i.head i.tail = c := by
    rw [h.head, h.tail, Nat.add_assoc, sub32_offset _ _ _ (by omega) (by omega)]
    omega
  have hstep : (t + size) % n = if t % n + size < n then t % n + size else t % n + size - n := by
    rw [← Nat.mod_add_mod, mod_of_lt_two (by omega)]
  have hbase : sub32 (add32 i.tail size) i.base = t % n + size := by
    rw [h.tail, h.base, add32_offset, sub32_offset _ _ _ (by omega) (by omega)]
    omega
  refine ⟨_, by rw [RingBuffer.finish, hspace, if_neg (by omega)], ?_, ?_, ?_⟩
  · rw [h.tail, add32_offset]
  · rw [h.tail, add32_offset, Nat.add_zero]
  · dsimp only
    by_cases hwrap : t % n + size < n
    · rw [if_neg (by omega), h.base]
      rw [if_pos hwrap] at hstep
      congr 2
      omega
    · rw [if_pos (by omega), h.base, add32_offset]
      rw [if_neg hwrap] at hstep
      congr 2
      omega

end

end RtosKernel.Zephyr.RingBuffer
