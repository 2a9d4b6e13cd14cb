import RtosKernel.RtThread.RingBufferMoves

/-! # The ring buffer refines a bounded byte FIFO

The FIFO is a list of at most `n` bytes. Every run of the functions of
`ringbuffer.c` from an initialised buffer is a run of the FIFO with the same
results, through `contents`. -/
namespace RtosKernel.RtThread.RingBuffer
open Lib.Word Lib.Window RtThread.Def List

/-- The data behind a `ptr` and 16-bit `length` argument pair. -/
structure Data where
  bytes : List UInt8
  short : bytes.length < 2 ^ 16

inductive Op where
  | put (data : Data)
  | putForce (data : Data)
  | putchar (ch : UInt8)
  | putcharForce (ch : UInt8)
  | get (length : UInt16)
  | getchar
  | peak
  | reset

/-- What a call returns, and the bytes it hands over. -/
structure Out where
  ret : Nat
  bytes : List UInt8
  deriving DecidableEq, Repr

def step (rb : RtRingbuffer) : Op → RtRingbuffer × Out
  | .put data => let r := rtRingbufferPut rb data.bytes; (r.1, ⟨r.2, []⟩)
  | .putForce data => let r := rtRingbufferPutForce rb data.bytes; (r.1, ⟨r.2, []⟩)
  | .putchar ch => let r := rtRingbufferPutchar rb ch; (r.1, ⟨r.2, []⟩)
  | .putcharForce ch => let r := rtRingbufferPutcharForce rb ch; (r.1, ⟨r.2, []⟩)
  | .get length => let r := rtRingbufferGet rb length.toNat; (r.1, ⟨r.2.1, r.2.2⟩)
  | .getchar => let r := rtRingbufferGetchar rb; (r.1, ⟨r.2.1, r.2.2⟩)
  | .peak => let r := rtRingbufferPeak rb; (r.1, ⟨r.2.1, r.2.2⟩)
  | .reset => (rtRingbufferReset rb, ⟨0, []⟩)

/-- A sequence of calls: the last state and the results in order. -/
def run (rb : RtRingbuffer) : List Op → RtRingbuffer × List Out
  | [] => (rb, [])
  | op :: ops => let r := step rb op; let rest := run r.1 ops; (rest.1, r.2 :: rest.2)

/-! ## The abstract FIFO -/

/-- The last `n` entries of a list. -/
def lastN (n : Nat) (l : List UInt8) : List UInt8 := l.drop (l.length - n)

/-- One call on a FIFO of capacity `n` holding `l`. `peak` may hand over any
prefix, but not the empty one while there are bytes. -/
inductive FifoStep (n : Nat) (l : List UInt8) : Op → Out → List UInt8 → Prop
  | put (data : Data) : FifoStep n l (.put data)
      ⟨(data.bytes.take (n - l.length)).length, []⟩ (l ++ data.bytes.take (n - l.length))
  | putForce (data : Data) : FifoStep n l (.putForce data)
      ⟨min n data.bytes.length, []⟩ (lastN n (l ++ data.bytes))
  | putchar (ch : UInt8) : FifoStep n l (.putchar ch)
      ⟨([ch].take (n - l.length)).length, []⟩ (l ++ [ch].take (n - l.length))
  | putcharForce (ch : UInt8) : FifoStep n l (.putcharForce ch) ⟨1, []⟩ (lastN n (l ++ [ch]))
  | get (length : UInt16) : FifoStep n l (.get length)
      ⟨min length.toNat l.length, l.take length.toNat⟩ (l.drop length.toNat)
  | getchar : FifoStep n l .getchar ⟨min 1 l.length, l.take 1⟩ (l.drop 1)
  | peak (k : Nat) : k ≤ l.length → (l ≠ [] → 0 < k) →
      FifoStep n l .peak ⟨k, l.take k⟩ (l.drop k)
  | reset : FifoStep n l .reset ⟨0, []⟩ []

inductive FifoRun (n : Nat) : List UInt8 → List Op → List Out → List UInt8 → Prop
  | nil (l : List UInt8) : FifoRun n l [] [] l
  | cons {l l' l'' : List UInt8} {op : Op} {ops : List Op} {out : Out} {outs : List Out} :
      FifoStep n l op out l' → FifoRun n l' ops outs l'' →
      FifoRun n l (op :: ops) (out :: outs) l''

/-! ## One call -/

/-- Dropping what the free space lacks and then appending the clipped data
leaves the last `n` bytes written. -/
theorem drop_append_eq_lastN {n : Nat} {l d : List UInt8} (hl : l.length ≤ n) :
    l.drop (min n d.length - (n - l.length)) ++ d.drop (d.length - n) = lastN n (l ++ d) := by
  unfold lastN
  rw [drop_append, length_append]
  rcases Nat.le_total d.length n with hd | hd
  · rw [Nat.min_eq_right hd, show d.length - n = 0 by omega, show l.length + d.length - n - l.length = 0 by omega,
      show d.length - (n - l.length) = l.length + d.length - n by omega]
  · rw [Nat.min_eq_left hd, show l.length + d.length - n - l.length = d.length - n by omega,
      show n - (n - l.length) = l.length by omega, drop_length,
      drop_of_length_le (show l.length ≤ l.length + d.length - n by omega)]

variable {rb : RtRingbuffer}

theorem putForce_moves {n k : Nat} {data : List UInt8} (h : Inv n rb)
    (hk : k ≤ rtRingbufferDataLen rb) (hd : rtRingbufferDataLen rb - k + data.length ≤ n) :
    Inv n (append (skip rb k) data) ∧
      contents (append (skip rb k) data) = (contents rb).drop k ++ data := by
  have hs := (skip_spec h hk).1
  have hd' : rtRingbufferDataLen (skip rb k) + data.length ≤ n := by
    rw [(skip_spec h hk).2]; exact hd
  exact ⟨(append_spec hs hd').1, by rw [contents_append hs hd', contents_skip h hk]⟩

/-- **One call of the code is one call of the FIFO.** -/
theorem step_refines {n : Nat} (h : Inv n rb) (op : Op) :
    Inv n (step rb op).1 ∧ FifoStep n (contents rb) op (step rb op).2 (contents (step rb op).1) := by
  have hle := rtRingbufferDataLen_le h
  have hlen := length_contents rb
  cases op with
  | put data =>
    simp only [step, rtRingbufferPut_eq h]
    have hfit : rtRingbufferDataLen rb + (data.bytes.take (n - rtRingbufferDataLen rb)).length ≤ n := by
      rw [length_take]; omega
    refine ⟨(append_spec h hfit).1, ?_⟩
    rw [contents_append h hfit, ← length_take, ← hlen]
    exact .put data
  | putForce data =>
    simp only [step, rtRingbufferPutForce_eq h]
    have hfit : rtRingbufferDataLen rb - (min n data.bytes.length - (n - rtRingbufferDataLen rb)) +
        (data.bytes.drop (data.bytes.length - n)).length ≤ n := by
      rw [length_drop]; omega
    obtain ⟨hi, hc⟩ := putForce_moves h (by omega) hfit
    refine ⟨hi, ?_⟩
    rw [hc, ← hlen, drop_append_eq_lastN (by omega)]
    exact .putForce data
  | putchar ch =>
    simp only [step, rtRingbufferPutchar_eq h]
    have hstep := FifoStep.putchar (n := n) (l := contents rb) ch
    by_cases hfull : rtRingbufferDataLen rb = n
    · simp only [if_pos hfull]
      rw [hlen, hfull, Nat.sub_self, take_zero, List.append_nil] at hstep
      exact ⟨h, hstep⟩
    · simp only [if_neg hfull]
      have hfit : rtRingbufferDataLen rb + [ch].length ≤ n := by simp; omega
      rw [hlen, take_of_length_le (by simp; omega)] at hstep
      exact ⟨(append_spec h hfit).1, by rw [contents_append h hfit]; exact hstep⟩
  | putcharForce ch =>
    simp only [step, rtRingbufferPutcharForce_eq h]
    have hn := h.pos
    have hfit : rtRingbufferDataLen rb - (if rtRingbufferDataLen rb = n then 1 else 0) + [ch].length ≤ n := by
      rw [length_singleton]; split <;> omega
    obtain ⟨hi, hc⟩ := putForce_moves h (by split <;> omega) hfit
    refine ⟨hi, ?_⟩
    have hlast := drop_append_eq_lastN (n := n) (l := contents rb) (d := [ch]) (by omega)
    have hone : [ch].drop ([ch].length - n) = [ch] := by
      rw [length_singleton, show 1 - n = 0 by omega]; rfl
    have hk : min n [ch].length - (n - (contents rb).length) = if rtRingbufferDataLen rb = n then 1 else 0 := by
      rw [length_singleton, hlen]; split <;> omega
    rw [hone, hk] at hlast
    rw [hc, hlast]
    exact .putcharForce ch
  | get length =>
    simp only [step, rtRingbufferGet_eq h]
    refine ⟨(skip_spec h (Nat.min_le_right _ _)).1, ?_⟩
    rw [contents_skip h (Nat.min_le_right _ _), ← hlen, drop_min_length]
    exact .get length
  | getchar =>
    simp only [step, rtRingbufferGetchar_eq h]
    refine ⟨(skip_spec h (Nat.min_le_right _ _)).1, ?_⟩
    rw [contents_skip h (Nat.min_le_right _ _), ← hlen, drop_min_length]
    exact .getchar
  | peak =>
    simp only [step, rtRingbufferPeak_eq h]
    refine ⟨(skip_spec h (Nat.min_le_right _ _)).1, ?_⟩
    have hr := h.read
    rw [contents_skip h (Nat.min_le_right _ _), ← hlen, show (contents rb).take (n - rb.readIndex) =
        (contents rb).take (min (n - rb.readIndex) (contents rb).length) by
          rw [← take_take, take_length]]
    refine .peak _ (Nat.min_le_right _ _) (fun hne => ?_)
    have := length_pos_iff.mpr hne
    omega
  | reset =>
    have hi : Inv n (rtRingbufferReset rb) :=
      ⟨h.size, h.pos, h.bound, h.pos, h.pos, .inl ⟨rfl, Nat.le_refl _⟩⟩
    refine ⟨hi, ?_⟩
    have hz : contents (rtRingbufferReset rb) = [] := by
      apply length_eq_zero_iff.mp
      rw [length_contents, rtRingbufferDataLen_eq hi]; rfl
    exact .reset

/-! ## Whole runs -/

theorem run_refines {n : Nat} (ops : List Op) : ∀ {rb : RtRingbuffer}, Inv n rb →
    Inv n (run rb ops).1 ∧ FifoRun n (contents rb) ops (run rb ops).2 (contents (run rb ops).1) := by
  induction ops with
  | nil => intro rb h; exact ⟨h, .nil _⟩
  | cons op ops ih =>
    intro rb h
    obtain ⟨hi, hs⟩ := step_refines h op
    obtain ⟨hi', hr⟩ := ih hi
    exact ⟨hi', .cons hs hr⟩

/-- A buffer of `n` bytes with both positions at the start. -/
structure Fresh (n : Nat) (rb : RtRingbuffer) : Prop where
  size : rb.bufferSize = n
  readMirror : rb.readMirror = false
  readIndex : rb.readIndex = 0
  writeMirror : rb.writeMirror = false
  writeIndex : rb.writeIndex = 0

theorem rtRingbufferInit_fresh (alignSize size : Nat) (pool : Nat → UInt8) :
    Fresh (rtAlignDown size alignSize) (rtRingbufferInit alignSize pool size) :=
  ⟨rfl, rfl, rfl, rfl, rfl⟩

theorem Fresh.inv {n : Nat} (h : Fresh n rb) (hpos : 1 ≤ n)
    (hbound : n ≤ 32767) : Inv n rb :=
  ⟨h.size, hpos, hbound, by rw [h.readIndex]; exact hpos, by rw [h.writeIndex]; exact hpos,
    .inl ⟨h.readMirror.trans h.writeMirror.symm, by rw [h.readIndex]; exact Nat.zero_le _⟩⟩

theorem Fresh.contents {n : Nat} (h : Fresh n rb) (hpos : 1 ≤ n)
    (hbound : n ≤ 32767) : contents rb = [] := by
  apply length_eq_zero_iff.mp
  rw [length_contents, rtRingbufferDataLen_eq (h.inv hpos hbound), h.readMirror, h.writeMirror, h.writeIndex]
  simp

/-- **The ring buffer refines a bounded byte FIFO.** Every sequence of calls on an initialised buffer of `n`
bytes returns what the FIFO of capacity `n` returns and leaves its bytes represented, with `data_len + space_len
= n`. -/
theorem ringbuffer_refines_fifo (n : Nat) (hpos : 1 ≤ n) (hbound : n ≤ 32767)
    (rb : RtRingbuffer) (hrb : Fresh n rb) (ops : List Op) :
    FifoRun n [] ops (run rb ops).2 (contents (run rb ops).1) ∧
      (contents (run rb ops).1).length = rtRingbufferDataLen (run rb ops).1 ∧
      rtRingbufferDataLen (run rb ops).1 ≤ n ∧
      rtRingbufferDataLen (run rb ops).1 + rtRingbufferSpaceLen (run rb ops).1 = n := by
  obtain ⟨hi, hr⟩ := run_refines ops (hrb.inv hpos hbound)
  rw [hrb.contents hpos hbound] at hr
  have hle := rtRingbufferDataLen_le hi
  refine ⟨hr, length_contents _, hle, ?_⟩
  rw [rtRingbufferSpaceLen_eq hi]
  exact Nat.add_sub_cancel' hle

/-- Five bytes forced into a buffer of four, then three read back. -/
theorem ringbuffer_refines_fifo_four :
    FifoRun 4 [] [.putForce ⟨[1, 2, 3, 4, 5], by decide⟩, .get 3] [⟨4, []⟩, ⟨3, [2, 3, 4]⟩] [5] := by
  have h := (ringbuffer_refines_fifo 4 (by decide) (by decide) _
    (rtRingbufferInit_fresh 4 7 (fun _ => 0))
    [.putForce ⟨[1, 2, 3, 4, 5], by decide⟩, .get 3]).1
  have ho : (run (rtRingbufferInit 4 (fun _ => 0) 7)
      [.putForce ⟨[1, 2, 3, 4, 5], by decide⟩, .get 3]).2 = [⟨4, []⟩, ⟨3, [2, 3, 4]⟩] := by
    decide +kernel
  have hc : contents (run (rtRingbufferInit 4 (fun _ => 0) 7)
      [.putForce ⟨[1, 2, 3, 4, 5], by decide⟩, .get 3]).1 = [5] := by decide +kernel
  exact h

end RtosKernel.RtThread.RingBuffer
