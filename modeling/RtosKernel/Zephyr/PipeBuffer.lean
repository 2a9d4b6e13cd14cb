import RtosKernel.Zephyr.Pipe

/-! # The circular buffer of a pipe

The buffer holds the bytes met on the way from `read_index`. Copying in two passes, up to
the end of the buffer and from its start on, puts as many bytes behind them as there is room
for, or takes as many from the front as there are. -/
namespace RtosKernel.Zephyr.Pipes
open Lib.Window List

variable {T : Type} {p p' p₁ : KPipe T} {bs bs' : List UInt8} {src dest mem : Nat → UInt8} {off n a b : Nat}

/-! ## Bytes of a memory -/

@[simp] theorem length_bytesAt : (bytesAt mem off n).length = n := by
  simp [bytesAt]

@[simp] theorem bytesAt_zero : bytesAt mem off 0 = [] := rfl

theorem bytesAt_add : bytesAt mem off (a + b) = bytesAt mem off a ++ bytesAt mem (off + a) b := by
  simp [bytesAt, range_add, Function.comp_def, Nat.add_assoc]

theorem bytesAt_congr {mem' : Nat → UInt8} (h : ∀ i, off ≤ i → i < off + n → mem' i = mem i) :
    bytesAt mem' off n = bytesAt mem off n := by
  apply map_congr_left
  intro i hi
  have := mem_range.mp hi
  exact h _ (by omega) (by omega)

theorem bytesAt_memcpy : bytesAt (memcpy mem off bs) off bs.length = bs := by
  apply ext_getElem length_bytesAt
  intro i hi hi'
  simp only [bytesAt, getElem_map, getElem_range]
  rw [memcpy_inside (by omega) (by omega)]
  simp only [Nat.add_sub_cancel_left]

def KPipe.contents (p : KPipe T) : List UInt8 := window p.buffer p.size p.readIndex p.bytesUsed

@[simp] theorem length_contents : p.contents.length = p.bytesUsed := length_window ..

/-- The indices of a circular buffer. -/
structure Ring (p : KPipe T) : Prop where
  used_le : p.bytesUsed ≤ p.size
  readIndex_lt : p.readIndex < p.size ∨ p.size = 0 ∧ p.readIndex = 0
  writeIndex_eq : p.writeIndex = (p.readIndex + p.bytesUsed) % p.size

/-- Bytes were put behind those that the buffer holds. -/
structure Puts (p p' : KPipe T) (bs : List UInt8) : Prop where
  ring : Ring p'
  contents : p'.contents = p.contents ++ bs
  size : p'.size = p.size
  waitQ : p'.waitQ = p.waitQ

/-- Bytes were taken from the front of those that the buffer holds. -/
structure Gets (p p' : KPipe T) (bs : List UInt8) : Prop where
  ring : Ring p'
  contents : p.contents = bs ++ p'.contents
  size : p'.size = p.size
  waitQ : p'.waitQ = p.waitQ

theorem Puts.used (h : Puts p p' bs) : p'.bytesUsed = p.bytesUsed + bs.length := by
  have := congrArg List.length h.contents
  simpa using this

theorem Gets.used (h : Gets p p' bs) : p.bytesUsed = bs.length + p'.bytesUsed := by
  have := congrArg List.length h.contents
  simpa using this

theorem Puts.trans (h : Puts p p₁ bs) (h' : Puts p₁ p' bs') : Puts p p' (bs ++ bs') where
  ring := h'.ring
  contents := by rw [h'.contents, h.contents, append_assoc]
  size := h'.size.trans h.size
  waitQ := h'.waitQ.trans h.waitQ

theorem Gets.trans (h : Gets p p₁ bs) (h' : Gets p₁ p' bs') : Gets p p' (bs ++ bs') where
  ring := h'.ring
  contents := by rw [h.contents, h'.contents, append_assoc]
  size := h'.size.trans h.size
  waitQ := h'.waitQ.trans h.waitQ

theorem two_passes {r c c' n a : Nat} (ha : a = min (min r c) n) (hc : a = c → r - a ≤ c') :
    a + min (min (r - a) c') (n - a) = min r n := by
  by_cases h : a = c
  · rw [Nat.min_eq_left (hc h), Nat.sub_min_sub_right]
    omega
  · obtain h0 | h0 : r - a = 0 ∨ n - a = 0 := by omega
    all_goals
      rw [h0]
      omega

/-! ## Putting -/

/-- How much one pass puts: up to the end of the buffer. -/
def putRoom (p : KPipe T) : Nat := min (p.size - p.bytesUsed) (p.size - p.writeIndex)

theorem putRun_spec (src : Nat → UInt8) (off n : Nat) (h : Ring p) :
    Puts p (putRun p src off n).1 (bytesAt src off (putRun p src off n).2) ∧
      (putRun p src off n).2 = min (putRoom p) n := by
  refine ⟨?_, rfl⟩
  obtain ⟨k, hk⟩ : ∃ k, k = min (putRoom p) n := ⟨_, rfl⟩
  have hroom : k ≤ p.size - p.bytesUsed ∧ k ≤ p.size - p.writeIndex := by
    unfold putRoom at hk
    omega
  have hcopied : (putRun p src off n).2 = k := hk.symm
  have hpipe : (putRun p src off n).1 = { p with
          buffer := memcpy p.buffer p.writeIndex (bytesAt src off k)
          bytesUsed := p.bytesUsed + k
          writeIndex := if p.writeIndex + k = p.size then 0 else p.writeIndex + k } := by
    rw [hk]
    rfl
  rw [hcopied, hpipe]
  have hused := h.used_le
  have hw := h.writeIndex_eq
  constructor
  · refine ⟨?_, h.readIndex_lt, ?_⟩
    · show p.bytesUsed + k ≤ p.size
      omega
    · show (if p.writeIndex + k = p.size then 0 else p.writeIndex + k) = (p.readIndex + (p.bytesUsed + k)) % p.size
      obtain hread | ⟨hsize, hread⟩ := h.readIndex_lt
      · rw [mod_of_lt_two (by omega)] at hw
        rw [mod_of_lt_two (by omega)]
        split at hw <;> split <;> split <;> omega
      · rw [hsize, Nat.mod_zero] at hw ⊢
        split <;> omega
  · obtain hread | ⟨hsize, hread⟩ := h.readIndex_lt
    · have happend := @window_append _ p.buffer p.size p.readIndex p.bytesUsed (bytesAt src off k) hread
        (by rw [length_bytesAt]; omega)
      rw [← hw, store_of_le (by rw [length_bytesAt]; omega), length_bytesAt] at happend
      exact happend
    · have hzero : k = 0 := by omega
      subst hzero
      show window (memcpy p.buffer p.writeIndex []) p.size p.readIndex p.bytesUsed = p.contents ++ []
      rw [memcpy_nil, List.append_nil]
      rfl
  · rfl
  · rfl

theorem pipeBufferPut_spec (src : Nat → UInt8) (off n : Nat) (h : Ring p) :
    Puts p (pipeBufferPut p src off n).1 (bytesAt src off (pipeBufferPut p src off n).2) ∧
      (pipeBufferPut p src off n).2 = min (p.size - p.bytesUsed) n := by
  have hwi : p.writeIndex ≤ p.size := by
    rw [h.writeIndex_eq]
    obtain hread | ⟨hsize, hread⟩ := h.readIndex_lt
    · exact (Nat.mod_lt _ (by omega)).le
    · have := h.used_le
      rw [hsize, Nat.mod_zero]
      omega
  obtain ⟨h₁, hn₁⟩ := putRun_spec src off n h
  have hwi' : (putRun p src off n).1.writeIndex =
      if p.writeIndex + (putRun p src off n).2 = p.size then 0 else p.writeIndex + (putRun p src off n).2 := rfl
  show Puts p (putRun (putRun p src off n).1 src (off + (putRun p src off n).2) (n - (putRun p src off n).2)).1
      (bytesAt src off ((putRun p src off n).2 + (putRun (putRun p src off n).1 src (off + (putRun p src off n).2)
        (n - (putRun p src off n).2)).2)) ∧
    (putRun p src off n).2 + (putRun (putRun p src off n).1 src (off + (putRun p src off n).2)
        (n - (putRun p src off n).2)).2 = min (p.size - p.bytesUsed) n
  obtain ⟨⟨p₁, a⟩, hgo⟩ : ∃ r, putRun p src off n = r := ⟨_, rfl⟩
  rw [hgo] at h₁ hn₁ hwi' ⊢
  obtain ⟨h₂, hn₂⟩ := putRun_spec src (off + a) (n - a) h₁.ring
  refine ⟨?_, ?_⟩
  · rw [bytesAt_add]
    exact h₁.trans h₂
  · rw [hn₂]
    have hused := h₁.used
    have hsize := h₁.size
    rw [length_bytesAt] at hused
    simp only [putRoom] at hn₁ ⊢
    rw [hused, hsize, hwi', Nat.sub_add_eq]
    refine two_passes hn₁ fun ha => ?_
    rw [if_pos (by omega)]
    omega

/-! ## Getting -/

/-- How much one pass gets: up to the end of the buffer. -/
def getRoom (p : KPipe T) : Nat := min p.bytesUsed (p.size - p.readIndex)

/-- Bytes were copied to a place of a memory, which is as it was elsewhere. -/
structure Copied (mem mem' : Nat → UInt8) (off : Nat) (bs : List UInt8) : Prop where
  bytes : bytesAt mem' off bs.length = bs
  outside : ∀ i, i < off ∨ off + bs.length ≤ i → mem' i = mem i

theorem copied_memcpy : Copied mem (memcpy mem off bs) off bs :=
  ⟨bytesAt_memcpy, fun _ h => memcpy_outside h⟩

theorem Copied.trans {mem₁ mem' : Nat → UInt8} (h : Copied mem mem₁ off bs)
    (h' : Copied mem₁ mem' (off + bs.length) bs') : Copied mem mem' off (bs ++ bs') where
  bytes := by
    rw [length_append, bytesAt_add, h'.bytes]
    rw [show bytesAt mem' off bs.length = bytesAt mem₁ off bs.length from
      bytesAt_congr fun i _ hi => h'.outside i (.inl hi), h.bytes]
  outside i hi := by
    rw [length_append] at hi
    rw [h'.outside i (by omega), h.outside i (by omega)]

theorem getRun_spec (dest : Nat → UInt8) (off n : Nat) (h : Ring p) : ∃ bs, Gets p (getRun p dest off n).1 bs ∧
    Copied dest (getRun p dest off n).2.1 off bs ∧ (getRun p dest off n).2.2 = bs.length ∧
      bs.length = min n (getRoom p) := by
  obtain ⟨k, hk⟩ : ∃ k, k = min n (getRoom p) := ⟨_, rfl⟩
  have hroom : k ≤ p.bytesUsed ∧ k ≤ p.size - p.readIndex := by
    unfold getRoom at hk
    omega
  have hgo : getRun p dest off n = ({ p with
          bytesUsed := p.bytesUsed - k
          readIndex := if p.readIndex + k = p.size then 0 else p.readIndex + k },
        memcpy dest off (bytesAt p.buffer p.readIndex k), k) := by
    rw [hk]
    rfl
  have hused := h.used_le
  have hw := h.writeIndex_eq
  rw [hgo]
  refine ⟨bytesAt p.buffer p.readIndex k, ?_, copied_memcpy, length_bytesAt.symm, by rw [length_bytesAt, hk]⟩
  constructor
  · refine ⟨?_, ?_, ?_⟩
    · show p.bytesUsed - k ≤ p.size
      omega
    · show (if p.readIndex + k = p.size then 0 else p.readIndex + k) < p.size ∨
        p.size = 0 ∧ (if p.readIndex + k = p.size then 0 else p.readIndex + k) = 0
      have := h.readIndex_lt
      split <;> omega
    · show p.writeIndex = ((if p.readIndex + k = p.size then 0 else p.readIndex + k) + (p.bytesUsed - k)) % p.size
      rw [hw]
      split
      · rw [← Nat.add_mod_right (0 + _), show 0 + (p.bytesUsed - k) + p.size = p.readIndex + p.bytesUsed by omega]
      · rw [show p.readIndex + k + (p.bytesUsed - k) = p.readIndex + p.bytesUsed by omega]
  · have hsplit : p.bytesUsed = k + (p.bytesUsed - k) := by omega
    rw [KPipe.contents, hsplit, window_add, window_linear (by have := h.readIndex_lt; omega), ← hsplit]
    congr 1
    show _ = window p.buffer p.size (if p.readIndex + k = p.size then 0 else p.readIndex + k) (p.bytesUsed - k)
    split
    · rename_i heq
      rw [heq, ← window_mod, Nat.mod_self]
    · rfl
  · rfl
  · rfl

theorem pipeBufferGet_spec (dest : Nat → UInt8) (off n : Nat) (h : Ring p) : ∃ bs, Gets p (pipeBufferGet p dest off n).1 bs ∧
    Copied dest (pipeBufferGet p dest off n).2.1 off bs ∧ (pipeBufferGet p dest off n).2.2 = bs.length ∧
      bs.length = min n p.bytesUsed := by
  obtain ⟨bs, h₁, hcopy₁, hn₁, hlen₁⟩ := getRun_spec dest off n h
  have hri : (getRun p dest off n).1.readIndex =
      if p.readIndex + (getRun p dest off n).2.2 = p.size then 0 else p.readIndex + (getRun p dest off n).2.2 := rfl
  obtain ⟨⟨p₁, dest₁, a⟩, hgo⟩ : ∃ r, getRun p dest off n = r := ⟨_, rfl⟩
  rw [hgo] at h₁ hcopy₁ hn₁ hri
  have hput : pipeBufferGet p dest off n =
      ((getRun p₁ dest₁ (off + a) (n - a)).1, (getRun p₁ dest₁ (off + a) (n - a)).2.1,
        a + (getRun p₁ dest₁ (off + a) (n - a)).2.2) := by
    simp only [pipeBufferGet, hgo]
  obtain ⟨bs', h₂, hcopy₂, hn₂, hlen₂⟩ := getRun_spec dest₁ (off + a) (n - a) h₁.ring
  rw [hput]
  obtain rfl : a = bs.length := hn₁
  refine ⟨bs ++ bs', h₁.trans h₂, hcopy₁.trans hcopy₂, ?_, ?_⟩
  · rw [length_append, ← hn₂]
  · have hused := h₁.used
    have hsize := h₁.size
    have hle := h.used_le
    have hread := h.readIndex_lt
    dsimp only at hused hsize hri
    simp only [getRoom] at hlen₁ hlen₂
    rw [length_append, hlen₂, hsize, hri, show p₁.bytesUsed = p.bytesUsed - bs.length by omega, Nat.min_comm,
      Nat.min_comm n]
    refine two_passes (hlen₁.trans (Nat.min_comm _ _)) fun ha => ?_
    rw [if_pos (by omega)]
    omega

end RtosKernel.Zephyr.Pipes
