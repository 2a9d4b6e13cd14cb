import RtosKernel.Lib.Ring
import RtosKernel.Lib.FreeBlocks
import RtosKernel.RtThread.Memheap

/-! # The two lists of a memheap

The block list is a ring closed by the tailer, the free list a ring closed by its header. The writes of
`memheap.c` are insertions and removals in one ring or the other. -/
namespace RtosKernel.RtThread.Memheap
open Lib.Word Lib.Ring Lib.Tiling RtThread.Def List Function

variable {c : Board} {h : RtMemheap} {p a n : Nat} {l r : List Nat}

theorem Board.memheapSize_bounds (c : Board) : 24 ≤ c.memheapSize ∧ c.memheapSize < 2 ^ 31 := by
  have ha := c.alignSize_le
  unfold Board.memheapSize
  cases c.memtrace with
  | false =>
    obtain ⟨h1, h2⟩ := c.rtAlign_small (show 24 ≤ 32 by decide)
    simp only [Bool.false_eq_true, if_false]
    omega
  | true =>
    obtain ⟨h1, h2⟩ := c.rtAlign_small (show 28 ≤ 32 by decide)
    simp only [if_true]
    omega

/-! ## What the writes to the lists leave alone -/

variable {h' h1 h2 h3 : RtMemheap}

/-- The region of the memheap is the same. -/
structure Same (h h' : RtMemheap) : Prop where
  self : h'.self = h.self
  startAddr : h'.startAddr = h.startAddr
  poolSize : h'.poolSize = h.poolSize
  freeList : h'.freeList = h.freeList
  blockList : h'.blockList = h.blockList

theorem Same.refl (h : RtMemheap) : Same h h := ⟨rfl, rfl, rfl, rfl, rfl⟩

theorem Same.trans (h : Same h1 h2) (h' : Same h2 h3) : Same h1 h3 :=
  ⟨h'.1.trans h.1, h'.2.trans h.2, h'.3.trans h.3, h'.4.trans h.4, h'.5.trans h.5⟩

structure SameBlocks (h h' : RtMemheap) : Prop extends Same h h' where
  magic : h'.magic = h.magic
  poolPtr : h'.poolPtr = h.poolPtr
  next : h'.next = h.next
  prev : h'.prev = h.prev

structure SameFree (h h' : RtMemheap) : Prop extends Same h h' where
  nextFree : h'.nextFree = h.nextFree
  prevFree : h'.prevFree = h.prevFree

theorem SameBlocks.trans (h : SameBlocks h1 h2) (h' : SameBlocks h2 h3) : SameBlocks h1 h3 :=
  ⟨h.toSame.trans h'.toSame, h'.2.trans h.2, h'.3.trans h.3, h'.4.trans h.4, h'.5.trans h.5⟩

theorem freeRemove_same : SameBlocks h (freeRemove h p) :=
  ⟨⟨rfl, rfl, rfl, rfl, rfl⟩, rfl, rfl, rfl, rfl⟩

theorem freeInsert_same : SameBlocks h (freeInsert h p) :=
  ⟨⟨rfl, rfl, rfl, rfl, rfl⟩, rfl, rfl, rfl, rfl⟩

theorem freeInsertBefore_same : SameBlocks h (freeInsertBefore h p n) :=
  ⟨⟨rfl, rfl, rfl, rfl, rfl⟩, rfl, rfl, rfl, rfl⟩

theorem freeTake_same : SameBlocks h (freeTake h p) :=
  ⟨⟨rfl, rfl, rfl, rfl, rfl⟩, rfl, rfl, rfl, rfl⟩

theorem insertBlock_same : SameFree h (insertBlock h a p) :=
  ⟨⟨rfl, rfl, rfl, rfl, rfl⟩, rfl, rfl⟩

theorem mergeNext_same : SameFree h (mergeNext h a p) :=
  ⟨⟨rfl, rfl, rfl, rfl, rfl⟩, rfl, rfl⟩

@[simp] theorem freeRemove_availableSize : (freeRemove h p).availableSize = h.availableSize := rfl

@[simp] theorem freeInsert_availableSize : (freeInsert h p).availableSize = h.availableSize := rfl

@[simp] theorem freeTake_availableSize : (freeTake h p).availableSize = h.availableSize := rfl

@[simp] theorem insertBlock_availableSize : (insertBlock h a p).availableSize = h.availableSize := rfl

@[simp] theorem mergeNext_availableSize : (mergeNext h a p).availableSize = h.availableSize := rfl

/-! ## The free list -/

def FreeRing (h : RtMemheap) (l : List Nat) : Prop := IsRing h.nextFree h.prevFree h.freeList l

theorem FreeRing.keep (hr : FreeRing h l) (hs : SameFree h h') : FreeRing h' l := by
  unfold FreeRing
  rw [hs.freeList, hs.nextFree, hs.prevFree]
  exact hr

theorem FreeRing.remove (hr : FreeRing h (l ++ p :: r)) : FreeRing (freeRemove h p) (l ++ r) := by
  obtain ⟨hn, hp⟩ := IsRing.neighbours hr
  have hne := IsRing.behind_ne hr
  have hrem := IsRing.remove hr
  simp only [FreeRing, freeRemove, hn, hp, update_of_ne hne]
  exact hrem

theorem FreeRing.insert (hr : FreeRing h l) (hp : p ∉ h.freeList :: l) : FreeRing (freeInsert h p) (p :: l) := by
  have hne : h.freeList ≠ p := fun e => hp (by simp [e])
  have hhead := IsRing.next_head hr
  have hins := IsRing.insert (l := []) hr hp
  simp only [FreeRing, freeInsert, hhead, update_of_ne hne]
  exact hins

theorem FreeRing.insertBefore (hr : FreeRing h (l ++ r)) (hp : p ∉ h.freeList :: (l ++ r)) :
    FreeRing (freeInsertBefore h p (behind r h.freeList)) (l ++ p :: r) := by
  have hmem : behind r h.freeList ∈ h.freeList :: (l ++ r) := by
    have := behind_mem r h.freeList
    simp only [mem_append, mem_cons, not_mem_nil, or_false] at this ⊢
    tauto
  have hne : behind r h.freeList ≠ p := ne_of_mem_of_not_mem hmem hp
  have hins := IsRing.insert hr hp
  simp only [FreeRing, freeInsertBefore, update_of_ne hne, IsRing.prev_behind hr]
  exact hins

theorem FreeRing.take (hr : FreeRing h (l ++ p :: r)) : FreeRing (freeTake h p) (l ++ r) := by
  have hnot : p ∉ h.freeList :: (l ++ r) := by
    have hnd := hr.nodup
    rw [← cons_append] at hnd
    exact (nodup_cons.mp (nodup_middle.mp hnd)).1
  refine IsRing.frame hr.remove (fun y hy => ?_) fun y hy => ?_
  · exact update_of_ne (ne_of_mem_of_not_mem hy hnot) _ _
  · exact update_of_ne (ne_of_mem_of_not_mem hy hnot) _ _

/-- The search of an allocation: it stops at a block that is large enough, or has
seen them all. -/
theorem freeSearch_spec {size : Nat} : ∀ {r l : List Nat} {fuel freeSize : Nat},
    FreeRing h (l ++ r) → freeSize < size → r.length + 1 < fuel →
    ∃ s, freeSearch c h size fuel (behind r h.freeList) freeSize = some s ∧
      (s.2 < size ∧ (∀ x ∈ r, memitemSize c h x < size) ∨
        s.1 ∈ r ∧ s.2 = memitemSize c h s.1 ∧ size ≤ s.2)
  | [], l, fuel + 1, freeSize, _, hlt, _ => by
    refine ⟨(h.freeList, freeSize), ?_, .inl ⟨hlt, by simp⟩⟩
    simp [freeSearch]
  | x :: r, l, fuel + 2, freeSize, hr, hlt, hf => by
    have hx : x ≠ h.freeList := by
      have hnd := hr.nodup
      rintro rfl
      simp at hnd
    have hnext : h.nextFree x = behind r h.freeList := (IsRing.neighbours hr).1
    have hr' : FreeRing h (l ++ [x] ++ r) := by rw [append_assoc]; exact hr
    rw [behind_cons, freeSearch, if_pos (by exact ⟨hx, hlt⟩)]
    by_cases hs : memitemSize c h x < size
    · simp only [if_pos hs, hnext]
      rw [length_cons] at hf
      obtain ⟨s, he, hcase⟩ := freeSearch_spec hr' hs (show r.length + 1 < fuel + 1 by omega)
      exact ⟨s, he, hcase.imp (fun hn => ⟨hn.1, forall_mem_cons.mpr ⟨hs, hn.2⟩⟩)
        fun hm => ⟨mem_cons_of_mem _ hm.1, hm.2⟩⟩
    · simp only [if_neg hs]
      refine ⟨(x, memitemSize c h x), ?_, .inr ⟨mem_cons_self .., rfl, Nat.le_of_not_lt hs⟩⟩
      rw [freeSearch, if_neg (by exact fun hc => hs hc.2)]

theorem insertPosition_spec (blkSize : Nat) : ∀ {r l : List Nat} {fuel : Nat},
    FreeRing h (l ++ r) → r.length < fuel →
    ∃ l' r', l ++ r = l' ++ r' ∧
      insertPosition c h blkSize fuel (behind r h.freeList) = some (behind r' h.freeList)
  | [], l, fuel + 1, _, _ => ⟨l, [], rfl, by simp [insertPosition]⟩
  | x :: r, l, fuel + 1, hr, hf => by
    have hx : x ≠ h.freeList := by
      have hnd := hr.nodup
      rintro rfl
      simp at hnd
    have hnext : h.nextFree x = behind r h.freeList := (IsRing.neighbours hr).1
    have hr' : FreeRing h (l ++ [x] ++ r) := by rw [append_assoc]; exact hr
    rw [length_cons] at hf
    by_cases hs : blkSize ≤ memitemSize c h x
    · exact ⟨l, x :: r, rfl, by simp [insertPosition, hx, hs]⟩
    · obtain ⟨l', r', he, hi⟩ := insertPosition_spec blkSize hr'
        (show r.length < fuel by omega)
      refine ⟨l', r', by rw [← he, append_assoc, singleton_append], ?_⟩
      simp only [insertPosition, behind_cons, hx, ne_eq, not_false_eq_true, if_true, if_neg hs, hnext]
      exact hi

/-- The address of the block that closes the pool. -/
def tailer (c : Board) (h : RtMemheap) : Nat := h.startAddr + h.poolSize - c.memheapSize

def BlockRing (c : Board) (h : RtMemheap) (l : List Nat) : Prop :=
  IsRing h.next h.prev (tailer c h) l

theorem BlockRing.insert (hr : BlockRing c h (l ++ a :: r)) (hp : p ∉ tailer c h :: (l ++ a :: r)) :
    BlockRing c (insertBlock h a p) (l ++ a :: p :: r) := by
  have hne : a ≠ p := fun e => hp (by simp [e])
  have hnext : h.next a = behind r (tailer c h) := (IsRing.neighbours hr).1
  have hr' : IsRing h.next h.prev (tailer c h) (l ++ [a] ++ r) := by
    rw [append_assoc]; exact hr
  have hins := IsRing.insert hr' (n := p) (by rw [append_assoc]; exact hp)
  rw [before_append_singleton, append_assoc, singleton_append] at hins
  simp only [BlockRing, insertBlock, hnext, update_of_ne hne]
  exact hins

theorem BlockRing.merge (hr : BlockRing c h (l ++ a :: p :: r)) : BlockRing c (mergeNext h a p) (l ++ a :: r) := by
  have hr' : IsRing h.next h.prev (tailer c h) (l ++ [a] ++ p :: r) := by
    rw [append_assoc]; exact hr
  have hnext : h.next p = behind r (tailer c h) := (IsRing.neighbours hr').1
  have hrem := IsRing.remove hr'
  rw [before_append_singleton, append_assoc, singleton_append] at hrem
  simp only [BlockRing, mergeNext, hnext]
  exact hrem

theorem BlockRing.next_eq (hr : BlockRing c h (l ++ a :: r)) : h.next a = behind r (tailer c h) :=
  (IsRing.neighbours hr).1

theorem BlockRing.prev_eq (hr : BlockRing c h (l ++ a :: r)) : h.prev a = before (tailer c h) l :=
  (IsRing.neighbours hr).2

theorem removeNextPtr_eq (hr : BlockRing c h (l ++ a :: p :: r)) :
    removeNextPtr h p = freeRemove (mergeNext h a p) p := by
  have hr' : BlockRing c h (l ++ [a] ++ p :: r) := by rw [append_assoc]; exact hr
  have hprev : h.prev p = a := by rw [hr'.prev_eq, before_append_singleton]
  have hne : p ≠ h.next p := by rw [hr'.next_eq]; exact IsRing.behind_ne hr'
  simp only [removeNextPtr, freeRemove, mergeNext, hprev, update_of_ne hne]

/-! ## The blocks -/

variable {pre post blocks : List Block} {u : Bool} {fl : List Nat}

/-- The magic of a used and of a free block. -/
def magicOf (used : Bool) : Nat := memheapMagic ||| used.toNat

/-- The headers of the block list describe the blocks. -/
structure Blocks (c : Board) (h : RtMemheap) (blocks : List Block) : Prop where
  ring : BlockRing c h (blocks.map Block.off)
  first : start blocks (tailer c h) = h.startAddr
  spaced : Spaced c.memheapSize blocks (tailer c h)
  magic : ∀ b ∈ blocks, h.magic b.off = magicOf b.used
  pool : ∀ b ∈ blocks, h.poolPtr b.off = h.self
  tailerUsed : h.magic (tailer c h) = magicUsed

theorem behind_map_off (e : Nat) : behind (post.map Block.off) e = start post e := by
  cases post with
  | nil => rfl
  | cons b post => rfl

theorem before_map_off (e : Nat) : before e (pre.map Block.off) = last e pre := by
  rcases eq_nil_or_concat pre with rfl | ⟨r, b, rfl⟩
  · rfl
  · rw [concat_eq_append, map_append, map_singleton, before_append_singleton, last_append_singleton]

variable {b : Block}

theorem Blocks.ring_at (hb : Blocks c h (pre ++ b :: post)) :
    BlockRing c h (pre.map Block.off ++ b.off :: post.map Block.off) := by
  have hr := hb.ring
  rwa [map_append, map_cons] at hr

theorem Blocks.next_eq (hb : Blocks c h (pre ++ b :: post)) : h.next b.off = start post (tailer c h) := by
  rw [hb.ring_at.next_eq, behind_map_off]

theorem Blocks.each : ∀ {post pre : List Block}, Blocks c h (pre ++ post) →
    Each true (fun x n => h.next x = x + n) post (tailer c h)
  | [], _, _ => trivial
  | b :: post, pre, hb => by
    have hb' : Blocks c h (pre ++ [b] ++ post) := by rwa [append_assoc]
    have hroom := (spaced_append.mp hb.spaced).2.1
    refine ⟨fun _ => ?_, hb'.each⟩
    change h.next b.off = b.off + (start post (tailer c h) - b.off)
    rw [hb.next_eq]
    omega

theorem Blocks.prev_eq (hb : Blocks c h (pre ++ b :: post)) : h.prev b.off = last (tailer c h) pre := by
  rw [hb.ring_at.prev_eq, before_map_off]

theorem Blocks.room (hb : Blocks c h (pre ++ b :: post)) :
    Spaced c.memheapSize pre b.off ∧ b.off + c.memheapSize ≤ start post (tailer c h) ∧
      Spaced c.memheapSize post (tailer c h) := by
  obtain ⟨hl, hr⟩ := spaced_append.mp hb.spaced
  exact ⟨hl, hr.1, hr.2⟩

theorem isUsed_iff (ha : h.magic a = magicOf u) : isUsed h a ↔ u = true := by
  unfold isUsed
  rw [ha]
  cases u <;> decide

theorem Blocks.isUsed_tailer (hb : Blocks c h blocks) : isUsed h (tailer c h) :=
  (isUsed_iff hb.tailerUsed).mpr rfl

theorem Blocks.fresh (hb : Blocks c h (pre ++ b :: post)) (hlo : b.off < n) (hhi : n < start post (tailer c h)) :
    n ∉ tailer c h :: (pre ++ b :: post).map Block.off := by
  obtain ⟨hl, _, hr⟩ := hb.room
  have hend := hr.start_le
  simp only [map_append, map_cons, mem_cons, mem_append, mem_map, not_or]
  refine ⟨by omega, ?_, by omega, ?_⟩
  · rintro ⟨x, hx, rfl⟩
    have := hl.off_le hx
    omega
  · rintro ⟨x, hx, rfl⟩
    have := hr.start_le_off hx
    omega

/-- **A new free block** is cut off the end of a block. -/
theorem Blocks.insert (hb : Blocks c h (pre ++ ⟨a, u⟩ :: post)) (hlo : a + c.memheapSize ≤ n)
    (hhi : n + c.memheapSize ≤ start post (tailer c h)) :
    Blocks c (insertBlock h a n) (pre ++ ⟨a, u⟩ :: ⟨n, false⟩ :: post) := by
  have hH := c.memheapSize_bounds.1
  obtain ⟨hl, _, hr⟩ := hb.room
  have hend := hr.start_le
  have hfresh := hb.fresh (show a < n by omega) (show n < _ by omega)
  have hne : ∀ b ∈ pre ++ ⟨a, u⟩ :: post, b.off ≠ n := fun b hm e =>
    hfresh (mem_cons_of_mem _ (e ▸ mem_map_of_mem hm))
  have hold : ∀ b ∈ pre ++ ⟨a, u⟩ :: ⟨n, false⟩ :: post, b ∈ pre ++ ⟨a, u⟩ :: post ∨ b = ⟨n, false⟩ := by
    intro b hm
    simp only [mem_append, mem_cons] at hm ⊢
    tauto
  refine ⟨?_, ?_, ?_, fun b hm => ?_, fun b hm => ?_, ?_⟩
  · rw [map_append, map_cons] at hfresh
    rw [map_append, map_cons, map_cons]
    exact hb.ring_at.insert hfresh
  · have := hb.first
    rwa [start_append] at this ⊢
  · exact spaced_append.mpr ⟨hl, hlo, hhi, hr⟩
  · rcases hold b hm with hm | rfl
    · exact (update_of_ne (hne b hm) _ _).trans (hb.magic b hm)
    · exact update_self n magicFreed h.magic
  · rcases hold b hm with hm | rfl
    · exact (update_of_ne (hne b hm) _ _).trans (hb.pool b hm)
    · exact update_self n h.self h.poolPtr
  · exact (update_of_ne (by change tailer c h ≠ n; omega) _ _).trans hb.tailerUsed

/-- **Two blocks become one.** -/
theorem Blocks.merge {u' : Bool} (hb : Blocks c h (pre ++ ⟨a, u⟩ :: ⟨n, u'⟩ :: post)) :
    Blocks c (mergeNext h a n) (pre ++ ⟨a, u⟩ :: post) := by
  obtain ⟨hl, hroom, hnroom, hr⟩ := hb.room
  have hold : ∀ b ∈ pre ++ ⟨a, u⟩ :: post, b ∈ pre ++ ⟨a, u⟩ :: ⟨n, u'⟩ :: post := by
    intro b hm
    simp only [mem_append, mem_cons] at hm ⊢
    tauto
  refine ⟨?_, ?_, ?_, fun b hm => hb.magic b (hold b hm), fun b hm => hb.pool b (hold b hm), hb.tailerUsed⟩
  · have hring := hb.ring
    rw [map_append, map_cons, map_cons] at hring
    rw [map_append, map_cons]
    exact BlockRing.merge hring
  · have := hb.first
    rwa [start_append] at this ⊢
  · refine spaced_append.mpr ⟨hl, ?_, hr⟩
    simp only [start_cons] at hroom hnroom
    change a + c.memheapSize ≤ start post (tailer c h)
    omega

theorem Blocks.mark (u' : Bool) (hb : Blocks c h (pre ++ ⟨a, u⟩ :: post)) :
    Blocks c { h with magic := update h.magic a (magicOf u') }
      (pre ++ ⟨a, u'⟩ :: post) := by
  have hH := c.memheapSize_bounds.1
  obtain ⟨_, hroom, hr⟩ := hb.room
  have hend := hr.start_le
  have hoff : ∀ b ∈ pre ++ ⟨a, u'⟩ :: post, b = ⟨a, u'⟩ ∨ b.off ≠ a ∧ b ∈ pre ++ ⟨a, u⟩ :: post := by
    intro b hm
    have hne := hb.spaced.off_ne (x := b) (by omega)
    simp only [mem_append, mem_cons] at hm ⊢
    tauto
  refine ⟨?_, ?_, hb.spaced.take u', fun b hm => ?_, fun b hm => ?_, ?_⟩
  · have hring := hb.ring
    rw [map_append, map_cons] at hring ⊢
    exact hring
  · have := hb.first
    rwa [start_append] at this ⊢
  · rcases hoff b hm with rfl | ⟨hne, hm⟩
    · exact update_self ..
    · exact (update_of_ne hne _ _).trans (hb.magic b hm)
  · rcases hoff b hm with rfl | ⟨_, hm⟩
    · exact hb.pool ⟨a, u⟩ (by simp)
    · exact hb.pool b hm
  · simp only at hroom
    exact (update_of_ne (by change tailer c h ≠ a; omega) _ _).trans hb.tailerUsed

/-! ## The memheap between two calls -/

/-- The addresses of the free blocks. -/
def freeOffs (blocks : List Block) : List Nat := (blocks.filter fun b => !b.used).map Block.off

@[simp] theorem freeOffs_nil : freeOffs [] = [] := rfl

@[simp] theorem freeOffs_used : freeOffs (⟨a, true⟩ :: post) = freeOffs post := rfl

@[simp] theorem freeOffs_free : freeOffs (⟨a, false⟩ :: post) = a :: freeOffs post := rfl

@[simp] theorem freeOffs_append : freeOffs (pre ++ post) = freeOffs pre ++ freeOffs post := by
  simp [freeOffs]

theorem mem_freeOffs : a ∈ freeOffs blocks ↔ (⟨a, false⟩ : Block) ∈ blocks := by
  simp only [freeOffs, mem_map, mem_filter, Bool.not_eq_true']
  constructor
  · rintro ⟨⟨x, used⟩, ⟨hm, hu⟩, rfl⟩
    obtain rfl : used = false := hu
    exact hm
  · exact fun hm => ⟨_, ⟨hm, rfl⟩, rfl⟩

/-- The bytes of the free blocks, without their headers. -/
def freeSum (c : Board) : List Block → Nat → Nat :=
  sumBy fun used n => if used then 0 else n - c.memheapSize

section Sum
variable {e : Nat}

@[simp] theorem freeSum_nil : freeSum c [] e = 0 := rfl

@[simp] theorem freeSum_used : freeSum c (⟨a, true⟩ :: post) e = freeSum c post e := by
  simp [freeSum]

@[simp] theorem freeSum_free : freeSum c (⟨a, false⟩ :: post) e =
    start post e - a - c.memheapSize + freeSum c post e := by simp [freeSum]

theorem freeSum_append : freeSum c (pre ++ post) e = freeSum c pre (start post e) + freeSum c post e :=
  sumBy_append _ post e pre

theorem freeSum_le (hs : Spaced n blocks e) : start blocks e + freeSum c blocks e ≤ e :=
  sumBy_le (fun u n => by cases u <;> simp) hs

end Sum

/-- What `rt_memheap_init` fixes for good. -/
structure Fixed (c : Board) (h : RtMemheap) : Prop where
  self_ne : h.self ≠ 0
  pool_le : h.startAddr + h.poolSize ≤ 2 ^ 32
  size_le : h.poolSize + 64 ≤ 2 ^ 32
  size_dvd : c.alignSize ∣ h.poolSize
  min_le : 2 * c.memheapSize ≤ h.poolSize
  header : h.freeList < h.startAddr ∨ h.startAddr + h.poolSize ≤ h.freeList
  blockList : h.blockList = h.startAddr

theorem Same.tailer_eq (hs : Same h h') : tailer c h' = tailer c h := by
  unfold tailer
  rw [hs.startAddr, hs.poolSize]

theorem Blocks.keep (hb : Blocks c h blocks) (hs : SameBlocks h h') : Blocks c h' blocks where
  ring := by
    unfold BlockRing
    rw [hs.tailer_eq, hs.next, hs.prev]
    exact hb.ring
  first := by rw [hs.tailer_eq, hs.startAddr]; exact hb.first
  spaced := hs.tailer_eq (c := c) ▸ hb.spaced
  magic := by rw [hs.magic]; exact hb.magic
  pool := by rw [hs.poolPtr, hs.self]; exact hb.pool
  tailerUsed := by rw [hs.tailer_eq, hs.magic]; exact hb.tailerUsed

theorem Fixed.same (hf : Fixed c h) (hs : Same h h') : Fixed c h' where
  self_ne := hs.self ▸ hf.self_ne
  pool_le := by rw [hs.startAddr, hs.poolSize]; exact hf.pool_le
  size_le := hs.poolSize ▸ hf.size_le
  size_dvd := hs.poolSize ▸ hf.size_dvd
  min_le := hs.poolSize ▸ hf.min_le
  header := by rw [hs.freeList, hs.startAddr, hs.poolSize]; exact hf.header
  blockList := by rw [hs.blockList, hs.startAddr]; exact hf.blockList

/-- The blocks, and the free list `fl`, which holds the free ones. -/
structure Inv (c : Board) (h : RtMemheap) (blocks : List Block) (fl : List Nat) : Prop where
  fixed : Fixed c h
  tiles : Blocks c h blocks
  ring : FreeRing h fl
  perm : fl.Perm (freeOffs blocks)
  available : h.availableSize = freeSum c blocks (tailer c h)
  merged : Merged blocks
  max : h.poolSize - h.availableSize ≤ h.maxUsedSize

theorem Fixed.tailer_add (hf : Fixed c h) : tailer c h + c.memheapSize = h.startAddr + h.poolSize := by
  have := hf.min_le
  unfold tailer
  omega

theorem memitemSize_eq (hf : Fixed c h) (hb : Blocks c h (pre ++ b :: post)) :
    memitemSize c h b.off = start post (tailer c h) - b.off - c.memheapSize := by
  have htail := hf.tailer_add
  have hpool := hf.pool_le
  have hH := c.memheapSize_bounds.1
  obtain ⟨_, hroom, hr⟩ := hb.room
  have hend := hr.start_le
  have hlen : sub32 (start post (tailer c h)) b.off = start post (tailer c h) - b.off :=
    sub32_of_le (by omega) (by omega)
  rw [memitemSize, hb.next_eq, hlen, sub32_of_le (by omega) (by omega)]

theorem charge_spec (h : RtMemheap) (available : Nat) {pool : Nat} (hle : available ≤ pool)
    (hlt : pool < 2 ^ 32) (hpool : h.poolSize = pool) :
    ∃ max', charge h available = { h with availableSize := available, maxUsedSize := max' } ∧
      pool - available ≤ max' := by
  subst hpool
  refine ⟨_, by simp only [charge, sub32_of_le hle hlt]; rfl, ?_⟩
  split <;> omega

theorem Inv.fresh (hi : Inv c h (pre ++ b :: post) fl) (hlo : b.off < n)
    (hhi : n < start post (tailer c h)) : n ∉ h.freeList :: fl := by
  have hb := hi.tiles
  have htail := hi.fixed.tailer_add
  have hhead := hi.fixed.header
  obtain ⟨_, _, hr⟩ := hb.room
  have hend := hr.start_le
  have hstart : h.startAddr ≤ b.off := hb.first ▸ hb.spaced.start_le_off (by simp)
  have hfresh := hb.fresh hlo hhi
  rw [mem_cons, not_or]
  refine ⟨by omega, fun hm => hfresh (mem_cons_of_mem _ ?_)⟩
  have hfree := mem_freeOffs.mp (hi.perm.mem_iff.mp hm)
  exact mem_map_of_mem hfree

theorem split_perm {x y : List Nat} (hp : fl.Perm (x ++ n :: y)) :
    ∃ l r, fl = l ++ n :: r ∧ (l ++ r).Perm (x ++ y) := by
  have hmem : n ∈ fl := hp.mem_iff.mpr (by simp)
  obtain ⟨l, r, rfl⟩ := append_of_mem hmem
  refine ⟨l, r, rfl, ?_⟩
  exact (perm_middle.symm.trans (hp.trans perm_middle)).cons_inv

theorem Inv.split_free (hi : Inv c h (pre ++ ⟨a, false⟩ :: post) fl) :
    ∃ l r, fl = l ++ a :: r ∧ (l ++ r).Perm (freeOffs pre ++ freeOffs post) := by
  have hperm := hi.perm
  rw [freeOffs_append, freeOffs_free] at hperm
  exact split_perm hperm

end RtosKernel.RtThread.Memheap
