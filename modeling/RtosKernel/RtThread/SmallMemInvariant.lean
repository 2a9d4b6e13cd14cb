import RtosKernel.Lib.Tiling
import RtosKernel.RtThread.SmallMem

/-! # The blocks of the small memory heap

The headers lay out a list of blocks. Splitting a block and merging two are
edits of that list at one place, and leave the headers before and behind alone
but for the one `prev` behind the edit. -/
namespace RtosKernel.RtThread.SmallMem
open Lib.Word Lib.Tiling RtThread.Def List Function

/-! ## The sizes of the build -/

section Sizes
variable (c : Board)

theorem Board.sizeofStructMem_dvd : c.alignSize ∣ c.sizeofStructMem := c.rtAlign_dvd _

theorem Board.minSizeAligned_dvd : c.alignSize ∣ c.minSizeAligned := c.rtAlign_dvd _

theorem Board.sizeofStructMem_bounds : 12 ≤ c.sizeofStructMem ∧ c.sizeofStructMem < 2 ^ 31 := by
  have ha := c.alignSize_le
  unfold Board.sizeofStructMem
  cases c.memtrace with
  | false =>
    obtain ⟨h1, h2⟩ := c.rtAlign_small (show 12 ≤ 32 by decide)
    simp only [Bool.false_eq_true, if_false]
    omega
  | true =>
    obtain ⟨h1, h2⟩ := c.rtAlign_small (show 16 ≤ 32 by decide)
    simp only [if_true]
    omega

theorem Board.minSizeAligned_le : c.minSizeAligned ≤ c.sizeofStructMem := by
  obtain ⟨_, h⟩ := c.rtAlign_small (show minSize ≤ 32 by decide)
  have hS := c.sizeofStructMem_bounds.1
  by_contra hlt
  have hd : c.alignSize ∣ c.minSizeAligned - c.sizeofStructMem :=
    Nat.dvd_sub c.minSizeAligned_dvd c.sizeofStructMem_dvd
  have := Nat.le_of_dvd (by omega) hd
  unfold Board.minSizeAligned minSize at *
  omega

theorem Board.minSizeAligned_pos : 0 < c.minSizeAligned :=
  lt_of_lt_of_le (show 0 < minSize by decide) (c.rtAlign_small (show minSize ≤ 32 by decide)).1

end Sizes

section Bits
variable {m : RtSmallMem} (heven : m.self % 2 = 0) (hlt : m.self < 2 ^ 32)
include heven hlt

theorem self_and_mask : m.self &&& memMask = m.self := by
  have h := and_mask m.self 1 (by decide) hlt
  rw [show memMask = 2 ^ 32 - 2 ^ 1 by decide, h]
  omega

theorem memUsed_eq : memUsed m = m.self + 1 := by
  have hor := Nat.two_pow_add_eq_or_of_lt (show 1 < 2 ^ 1 by decide) (m.self / 2)
  have hdiv : 2 ^ 1 * (m.self / 2) = m.self := by omega
  rw [hdiv] at hor
  rw [memUsed, self_and_mask heven hlt, hor]

theorem memFreed_eq : memFreed m = m.self := by
  rw [memFreed, self_and_mask heven hlt, Nat.or_zero]

omit hlt in
theorem memIsused_eq (used : Bool) (next prev : Nat) : memIsused ⟨m.self + used.toNat, next, prev⟩ = used := by
  cases used <;> simp [memIsused, Nat.and_one_is_mod] <;> omega

theorem memPool_eq (used : Bool) (next prev : Nat) : memPool ⟨m.self + used.toNat, next, prev⟩ = m.self := by
  have hu : used.toNat ≤ 1 := Bool.toNat_le used
  have h := and_mask (m.self + used.toNat) 1 (by decide) (by omega)
  simp only [memPool]
  rw [show memMask = 2 ^ 32 - 2 ^ 1 by decide, h]
  omega

end Bits

/-! ## Headers and blocks -/

/-- The headers of the blocks are those of the heap `pool`: each points to the next
block, and back to the one before it. -/
def Laid (item : Nat → RtSmallMemItem) (pool : Nat) : Nat → List Block → Nat → Prop
  | _, [], _ => True
  | p, b :: l, e => item b.off = ⟨pool + b.used.toNat, start l e, p⟩ ∧ Laid item pool b.off l e

variable {item item' : Nat → RtSmallMemItem} {pool p e : Nat} {b : Block} {l pre post : List Block}

@[simp] theorem laid_nil : Laid item pool p [] e := trivial

@[simp] theorem laid_cons : Laid item pool p (b :: l) e ↔
    item b.off = ⟨pool + b.used.toNat, start l e, p⟩ ∧ Laid item pool b.off l e := Iff.rfl

theorem laid_append {r : List Block} : ∀ {l : List Block} {p : Nat},
    Laid item pool p (l ++ r) e ↔ Laid item pool p l (start r e) ∧ Laid item pool (last p l) r e
  | [], p => by simp
  | b :: l, p => by simp [laid_append (l := l), start_append, and_assoc]

theorem Laid.frame : ∀ {l : List Block} {p : Nat}, Laid item pool p l e →
    (∀ b ∈ l, item' b.off = item b.off) → Laid item' pool p l e
  | [], _, _, _ => trivial
  | b :: l, p, h, hf =>
    ⟨(hf b (by simp)).trans h.1, h.2.frame fun x hx => hf x (by simp [hx])⟩

theorem Laid.mem : ∀ {l : List Block} {p : Nat}, Laid item pool p l e → b ∈ l →
    ∃ next prev, item b.off = ⟨pool + b.used.toNat, next, prev⟩
  | x :: l, p, h, hb => by
    rcases mem_cons.mp hb with rfl | hb
    · exact ⟨_, _, h.1⟩
    · exact h.2.mem hb

/-- Writing the back pointer of the first block, or of whatever lies behind the
last. -/
theorem Laid.setPrev {h q : Nat} (hl : Laid item pool p l e) (hs : Spaced h l e) (hh : 0 < h) :
    Laid (Function.update item (start l e) { item (start l e) with prev := q }) pool q l e := by
  cases l with
  | nil => trivial
  | cons b l =>
    refine ⟨by simp [hl.1], hl.2.frame fun x hx => update_of_ne ?_ _ _⟩
    have := hs.1
    have := hs.2.start_le_off hx
    simp only [start_cons]
    omega

theorem Laid.update_before {h o : Nat} {v : RtSmallMemItem} (hl : Laid item pool p l e)
    (hs : Spaced h l e) (hh : 0 < h) (ho : e ≤ o) : Laid (Function.update item o v) pool p l e :=
  hl.frame fun x hx => update_of_ne (by have := hs.off_le hx; omega) _ _

theorem Laid.update_behind {h o : Nat} {v : RtSmallMemItem} (hl : Laid item pool p l e)
    (hs : Spaced h l e) (ho : o < start l e) : Laid (Function.update item o v) pool p l e :=
  hl.frame fun x hx => update_of_ne (by have := hs.start_le_off hx; omega) _ _

/-- The bytes of the used blocks, headers included. -/
def usedSum : List Block → Nat → Nat := sumBy fun used n => if used then n else 0

/-- What `rt_smem_init` fixes for good. -/
structure Fixed (c : Board) (m : RtSmallMem) : Prop where
  even : m.self % 2 = 0
  self_lt : m.self < 2 ^ 32
  heapEnd_eq : m.heapEnd = m.memSizeAligned + c.sizeofStructMem
  inside : m.heapPtr + m.heapEnd + c.sizeofStructMem < 2 ^ 32
  heapPtr_dvd : c.alignSize ∣ m.heapPtr
  size_dvd : c.alignSize ∣ m.memSizeAligned
  minSize_le : c.minSizeAligned ≤ m.memSizeAligned

theorem Fixed.keep {c : Board} {m m' : RtSmallMem} (h : Fixed c m) (hself : m'.self = m.self)
    (hptr : m'.heapPtr = m.heapPtr) (hend : m'.heapEnd = m.heapEnd)
    (hsize : m'.memSizeAligned = m.memSizeAligned) : Fixed c m' where
  even := hself ▸ h.even
  self_lt := hself ▸ h.self_lt
  heapEnd_eq := by rw [hend, hsize]; exact h.heapEnd_eq
  inside := by rw [hptr, hend]; exact h.inside
  heapPtr_dvd := hptr ▸ h.heapPtr_dvd
  size_dvd := hsize ▸ h.size_dvd
  minSize_le := hsize ▸ h.minSize_le

/-- The headers, `lfree` and `used` describe the blocks, each of which has room for
a header and at least one byte. -/
structure Tiles (c : Board) (m : RtSmallMem) (blocks : List Block) : Prop where
  laid : Laid m.item m.self 0 blocks m.heapEnd
  first : start blocks m.heapEnd = 0
  spaced : Spaced (c.sizeofStructMem + 1) blocks m.heapEnd
  aligned : ∀ b ∈ blocks, c.alignSize ∣ b.off
  lfree : m.lfree = firstFree blocks m.heapEnd
  used : m.used = usedSum blocks m.heapEnd
  endUsed : (m.item m.heapEnd).poolPtr = m.self + 1

structure Inv (c : Board) (m : RtSmallMem) (blocks : List Block) : Prop where
  fixed : Fixed c m
  tiles : Tiles c m blocks
  merged : Merged blocks
  max : m.used ≤ m.max

variable {c : Board} {m : RtSmallMem} {o n : Nat}

@[simp] theorem usedSum_nil : usedSum [] e = 0 := rfl

@[simp] theorem usedSum_free : usedSum (⟨o, false⟩ :: l) e = usedSum l e := by simp [usedSum]

@[simp] theorem usedSum_used : usedSum (⟨o, true⟩ :: l) e = (start l e - o) + usedSum l e := by
  simp [usedSum]

theorem usedSum_append (r : List Block) :
    usedSum (l ++ r) e = usedSum l (start r e) + usedSum r e := sumBy_append _ r e l

/-- Everything the invariant says about one block of the list. -/
structure Middle (c : Board) (m : RtSmallMem) (pre : List Block) (b : Block) (post : List Block) :
    Prop where
  before : Laid m.item m.self 0 pre b.off
  header : m.item b.off = ⟨m.self + b.used.toNat, start post m.heapEnd, last 0 pre⟩
  behind : Laid m.item m.self b.off post m.heapEnd
  spacedBefore : Spaced (c.sizeofStructMem + 1) pre b.off
  room : b.off + (c.sizeofStructMem + 1) ≤ start post m.heapEnd
  spacedBehind : Spaced (c.sizeofStructMem + 1) post m.heapEnd

theorem Tiles.middle (h : Tiles c m (pre ++ b :: post)) : Middle c m pre b post := by
  obtain ⟨hl, hr⟩ := laid_append.mp h.laid
  obtain ⟨hsl, hsr⟩ := spaced_append.mp h.spaced
  exact ⟨hl, hr.1, hr.2, hsl, hsr.1, hsr.2⟩

theorem Middle.room_le (h : Middle c m pre b post) : b.off + (c.sizeofStructMem + 1) ≤ m.heapEnd :=
  h.room.trans h.spacedBehind.start_le

/-! ## Header fields after a write -/

theorem setPoolPtr_of_ne {v : Nat} (h : n ≠ o) : setPoolPtr item o v n = item n :=
  update_of_ne h _ _

theorem setNext_of_ne {v : Nat} (h : n ≠ o) : setNext item o v n = item n :=
  update_of_ne h _ _

theorem setPrev_of_ne {v : Nat} (h : n ≠ o) : setPrev item o v n = item n :=
  update_of_ne h _ _

@[simp] theorem setPrev_poolPtr {v : Nat} : (setPrev item o v n).poolPtr = (item n).poolPtr := by
  by_cases h : n = o
  · subst h; simp [setPrev]
  · rw [setPrev_of_ne h]

/-- **Merging two free blocks.** -/
theorem joinBlocks_tiles (h : Tiles c m (pre ++ ⟨o, false⟩ :: ⟨n, false⟩ :: post)) :
    Tiles c (joinBlocks m o n) (pre ++ ⟨o, false⟩ :: post) := by
  have hm := h.middle
  have hm2 : Middle c m (pre ++ [⟨o, false⟩]) ⟨n, false⟩ post :=
    Tiles.middle (by rw [append_assoc]; exact h)
  have hS := Nat.succ_pos c.sizeofStructMem
  have hroom : o + (c.sizeofStructMem + 1) ≤ n := hm.room
  have hnroom : n + (c.sizeofStructMem + 1) ≤ start post m.heapEnd := hm2.room
  have hnend := hm2.spacedBehind.start_le
  have hitemn : m.item n = ⟨m.self, start post m.heapEnd, o⟩ := by rw [hm2.header]; simp
  have hitemo : m.item o = ⟨m.self, n, last 0 pre⟩ := by rw [hm.header]; simp
  -- the headers after the first two writes
  set s := start post m.heapEnd with hs
  set item1 := setNext (setPoolPtr m.item n 0) o s with h1
  have hjoin : (joinBlocks m o n).item = setPrev item1 s o := by simp [joinBlocks, hitemn, h1]
  have hlow : Laid item1 m.self 0 pre o :=
    (hm.before.update_before hm.spacedBefore hS (show o ≤ n by omega)).update_before
      hm.spacedBefore hS (le_refl o)
  have hhigh : Laid item1 m.self n post m.heapEnd :=
    (hm2.behind.update_behind hm2.spacedBehind (show n < _ by omega)).update_behind
      hm2.spacedBehind (show o < _ by omega)
  have hself : item1 o = ⟨m.self, s, last 0 pre⟩ := by
    simp [h1, setNext, setPoolPtr_of_ne (show o ≠ n by omega), hitemo]
  refine ⟨?_, ?_, ?_, ?_, ?_, ?_, ?_⟩
  · rw [hjoin]
    refine laid_append.mpr ⟨?_, ?_, hhigh.setPrev hm2.spacedBehind hS⟩
    · exact hlow.update_before hm.spacedBefore hS (show o ≤ s by omega)
    · rw [setPrev_of_ne (show o ≠ s by omega), hself]
      simp [joinBlocks, hs]
  · have := h.first
    rwa [start_append] at this ⊢
  · refine spaced_append.mpr ⟨hm.spacedBefore, ?_, hm2.spacedBehind⟩
    exact (show o + (c.sizeofStructMem + 1) ≤ s by omega)
  · intro x hx
    apply h.aligned
    simp only [mem_append, mem_cons] at hx ⊢
    tauto
  · have := h.lfree
    rwa [firstFree_append, firstFree_free] at this ⊢
  · have := h.used
    simp only [usedSum_append, start_cons, usedSum_free] at this ⊢
    exact this
  · rw [hjoin, setPrev_poolPtr]
    have hend : item1 m.heapEnd = m.item m.heapEnd := by
      rw [h1, setNext_of_ne (show m.heapEnd ≠ o by omega), setPoolPtr_of_ne (show m.heapEnd ≠ n by omega)]
    change (item1 m.heapEnd).poolPtr = m.self + 1
    rw [hend, h.endUsed]

section
variable (hf : Fixed c m) (h : Tiles c m (pre ++ ⟨o, false⟩ :: post))
include hf h

theorem plugForward_tiles :
    ∃ item', plugForward m o = { m with item := item' } ∧
      Tiles c { m with item := item' } (pre ++ ⟨o, false⟩ :: dropFree post) := by
  have hm := h.middle
  have hS := Nat.succ_pos c.sizeofStructMem
  have hroom := hm.room
  rcases post with _ | ⟨⟨n, used⟩, post⟩
  · refine ⟨m.item, ?_, h⟩
    have hend : (m.item o).next = m.heapEnd := by rw [hm.header]; rfl
    simp [plugForward, hend]
  have hm2 : Middle c m (pre ++ [⟨o, false⟩]) ⟨n, used⟩ post :=
    Tiles.middle (by rw [append_assoc]; exact h)
  have hnext : (m.item o).next = n := by rw [hm.header]; rfl
  have hused : memIsused (m.item n) = used := by
    rw [hm2.header]; exact memIsused_eq hf.even used _ _
  cases used with
  | true => exact ⟨m.item, by simp [plugForward, hnext, hused], h⟩
  | false =>
    have hnend := hm2.room_le
    -- `lfree` is not behind the block, which is free itself
    have hlfree : m.lfree ≠ n := by
      rw [h.lfree, firstFree_append, firstFree_free]
      rcases firstFree_cases hS hm.spacedBefore with hall | ⟨x, hx, hall⟩ <;>
        rw [hall] <;> simp only [start_cons] at * <;> omega
    have hcond : o ≠ n ∧ ¬ memIsused (m.item n) = true ∧ n ≠ m.heapEnd := by
      simp only [start_cons] at *
      exact ⟨by omega, by simp [hused], by omega⟩
    refine ⟨(joinBlocks m o n).item, ?_, joinBlocks_tiles h⟩
    simp only [plugForward, hnext, if_pos hcond, if_neg hlfree]
    rfl

theorem plugBackward_tiles :
    ∃ item', plugBackward m o = { m with item := item' } ∧
      Tiles c { m with item := item' } (absorb pre o ++ post) := by
  have hm := h.middle
  have hS := Nat.succ_pos c.sizeofStructMem
  have hprev : (m.item o).prev = last 0 pre := by rw [hm.header]
  rcases last_cases pre with rfl | ⟨r, q, rfl⟩ | ⟨r, q, rfl⟩
  · -- the first block points back to itself
    have ho : (m.item o).prev = o := hprev.trans (show o = 0 from h.first).symm
    exact ⟨m.item, by simp [plugBackward, ho], by simpa using h⟩
  · rw [last_append_singleton] at hprev
    rw [append_assoc, singleton_append] at h
    have hq := h.middle
    have hroom := hq.room
    have hfree : memIsused (m.item q) = false := by
      rw [hq.header]; exact memIsused_eq hf.even false _ _
    have hlfree : m.lfree ≠ o := by
      rw [h.lfree, firstFree_append, firstFree_free]
      rcases firstFree_cases hS hq.spacedBefore with hall | ⟨x, hx, hall⟩ <;>
        rw [hall] <;> simp only [start_cons] at * <;> omega
    have hcond : q ≠ o ∧ ¬ memIsused (m.item q) = true := by
      simp only [start_cons] at *
      exact ⟨by omega, by simp [hfree]⟩
    refine ⟨(joinBlocks m q o).item, ?_, ?_⟩
    · simp only [plugBackward, hprev, if_pos hcond, if_neg hlfree]
      rfl
    · rw [absorb_free, append_assoc, singleton_append]
      exact joinBlocks_tiles h
  · have hq : Middle c m r ⟨q, true⟩ (⟨o, false⟩ :: post) :=
      Tiles.middle (by rw [append_assoc] at h; exact h)
    have hused : memIsused (m.item q) = true := by
      rw [hq.header]; exact memIsused_eq hf.even true _ _
    refine ⟨m.item, by simp [plugBackward, hprev, hused], ?_⟩
    rw [absorb_used, append_assoc _ [_]]
    exact h

theorem plugHoles_tiles :
    ∃ item', plugHoles m o = some { m with item := item' } ∧
      Tiles c { m with item := item' } (absorb pre o ++ dropFree post) := by
  obtain ⟨item1, h1, ht1⟩ := plugForward_tiles hf h
  have hf1 : Fixed c { m with item := item1 } := hf.keep rfl rfl rfl rfl
  obtain ⟨item2, h2, ht2⟩ := plugBackward_tiles hf1 ht1
  have hroom := h.middle.room_le
  have hin := hf.inside
  simp only at hroom
  have ha1 : add32 m.heapPtr o = m.heapPtr + o := add32_of_lt (by omega)
  have ha2 : add32 m.heapPtr m.heapEnd = m.heapPtr + m.heapEnd := add32_of_lt (by omega)
  refine ⟨item2, ?_, ht2⟩
  simp only [plugHoles, ha1, ha2, rtAssert_of (show m.heapPtr ≤ m.heapPtr + o by omega),
    rtAssert_of (show m.heapPtr + o < m.heapPtr + m.heapEnd by omega), bind, Option.bind_some, h1, h2]
  rfl

end

end RtosKernel.RtThread.SmallMem
