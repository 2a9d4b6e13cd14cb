import RtosKernel.Lib.FreeBlocks
import RtosKernel.FreeRTOS.Heap4

/-! # The blocks of the heap

The heap is a list of blocks from its aligned start to `pxEnd`. Inserting a
block into the free list merges it with its neighbours where these are free. -/
namespace RtosKernel.FreeRTOS.Heap4
open Lib.Word Lib.Tiling FreeRTOS.Def List Function

/-! ## The sizes of the build -/

section Sizes
variable (c : Board)

theorem Board.align_pos : 0 < c.byteAlignment := Nat.two_pow_pos _

theorem Board.alignBits_le : c.alignBits ≤ c.sizeBits := by
  have := c.link_le
  by_contra hlt
  have := Nat.pow_lt_pow_right (show 1 < 2 by decide) (show c.sizeBits < c.alignBits by omega)
  omega

theorem Board.align_dvd_pow : c.byteAlignment ∣ 2 ^ c.sizeBits := pow_dvd_pow 2 c.alignBits_le

theorem Board.alignDown_eq {x : Nat} (hx : x < 2 ^ c.sizeBits) : c.alignDown x = x - x % c.byteAlignment :=
  and_maskw x c.alignBits_le hx

theorem Board.and_mask (x : Nat) : x &&& c.byteAlignmentMask = x % c.byteAlignment :=
  Nat.and_two_pow_sub_one_eq_mod x c.alignBits

theorem Board.struct_eq : c.heapStructSize =
    c.linkSize + (c.byteAlignment - 1) - (c.linkSize + (c.byteAlignment - 1)) % c.byteAlignment := by
  have h1 := c.link_le
  have h2 := c.align_pos
  have hlt : c.linkSize + (c.byteAlignment - 1) < 2 ^ c.sizeBits := by
    unfold Board.byteAlignment at *
    omega
  rw [Board.heapStructSize, addw_of_lt hlt, c.alignDown_eq hlt]

theorem Board.struct_dvd : c.byteAlignment ∣ c.heapStructSize := by
  rw [c.struct_eq]
  exact Nat.dvd_sub_mod _

theorem Board.struct_pos : 0 < c.heapStructSize := by
  have h2 := c.align_pos
  have h3 := c.link_pos
  have := Nat.mod_lt (c.linkSize + (c.byteAlignment - 1)) h2
  rw [c.struct_eq]
  omega

theorem Board.struct_lt : 2 * c.heapStructSize < 2 ^ c.sizeBits := by
  have h1 := c.link_le
  have h2 := c.align_pos
  have h3 := Nat.sub_le (c.linkSize + (c.byteAlignment - 1))
    ((c.linkSize + (c.byteAlignment - 1)) % c.byteAlignment)
  rw [← c.struct_eq] at h3
  unfold Board.byteAlignment at *
  omega

theorem Board.minimumBlockSize_eq : c.minimumBlockSize = 2 * c.heapStructSize := by
  have h := c.struct_lt
  rw [Board.minimumBlockSize, Nat.shiftLeft_eq, pow_one, Nat.mul_comm, Nat.mod_eq_of_lt h]

/-- The bytes before the first aligned address of `ucHeap`. -/
def Board.pad : Nat := (c.byteAlignment - c.ucHeap % c.byteAlignment) % c.byteAlignment

/-- `configTOTAL_HEAP_SIZE` is large enough for `prvHeapInit`: the aligned part of the
heap holds a free block and `*pxEnd`. -/
def Board.Large : Prop :=
  c.pad + 2 * c.heapStructSize + (c.ucHeap + c.totalHeapSize) % c.byteAlignment ≤ c.totalHeapSize
  deriving Decidable

theorem Board.ucHeap_pad_dvd : c.byteAlignment ∣ c.ucHeap + c.pad := by
  have h := Nat.div_add_mod c.ucHeap c.byteAlignment
  have hm := Nat.mod_lt c.ucHeap c.align_pos
  by_cases h0 : c.ucHeap % c.byteAlignment = 0
  · have hp : c.pad = 0 := by rw [Board.pad, h0, Nat.sub_zero, Nat.mod_self]
    rw [hp, Nat.add_zero]
    exact Nat.dvd_of_mod_eq_zero h0
  · have hp : c.pad = c.byteAlignment - c.ucHeap % c.byteAlignment :=
      Nat.mod_eq_of_lt (by omega)
    refine ⟨c.ucHeap / c.byteAlignment + 1, ?_⟩
    rw [Nat.mul_add, Nat.mul_one]
    omega

variable {c}

section
variable (hl : c.Large)
include hl

theorem Board.alignedHeap_eq : c.alignedHeap = (c.ucHeap + c.pad, c.totalHeapSize - c.pad) := by
  have hle := c.heap_le
  have hS := c.struct_pos
  have hA := c.align_pos
  have hm := Nat.mod_lt c.ucHeap hA
  unfold Board.Large at hl
  rw [Board.alignedHeap, c.and_mask]
  by_cases h0 : c.ucHeap % c.byteAlignment = 0
  · have hp : c.pad = 0 := by rw [Board.pad, h0, Nat.sub_zero, Nat.mod_self]
    rw [if_neg (by simpa using h0), hp]
    rfl
  · have hp : c.pad = c.byteAlignment - c.ucHeap % c.byteAlignment :=
      Nat.mod_eq_of_lt (by omega)
    -- the next multiple of the alignment is still an address
    have hnext : c.ucHeap + c.pad + c.byteAlignment ≤ 2 ^ c.sizeBits := by
      obtain ⟨q, hq⟩ := c.ucHeap_pad_dvd
      obtain ⟨p, hp2⟩ := c.align_dvd_pow
      rw [hq, hp2, ← Nat.mul_succ]
      refine Nat.mul_le_mul_left _ (Nat.succ_le_of_lt ?_)
      by_contra hge
      have := Nat.mul_le_mul_left c.byteAlignment (show p ≤ q by omega)
      omega
    have hlt : c.ucHeap + (c.byteAlignment - 1) < 2 ^ c.sizeBits := by omega
    have hdown : c.alignDown (addw c.sizeBits c.ucHeap (c.byteAlignment - 1)) = c.ucHeap + c.pad := by
      obtain ⟨m, hm1, hm2⟩ : ∃ m, c.ucHeap + (c.byteAlignment - 1) = c.ucHeap + c.pad + m ∧
          m < c.byteAlignment := ⟨c.ucHeap % c.byteAlignment - 1, by omega, by omega⟩
      have hmod : (c.ucHeap + c.pad + m) % c.byteAlignment = m := by
        obtain ⟨q, hq⟩ := c.ucHeap_pad_dvd
        rw [hq, Nat.mul_add_mod, Nat.mod_eq_of_lt hm2]
      rw [addw_of_lt hlt, c.alignDown_eq hlt, hm1, hmod, Nat.add_sub_cancel]
    have hne : c.ucHeap ≠ 0 := fun e => h0 (by rw [e, Nat.zero_mod])
    have hback : subw c.sizeBits (c.ucHeap + c.pad) c.ucHeap = c.pad := by
      rw [subw_of_le (by omega) (by omega), Nat.add_sub_cancel_left]
    rw [if_pos h0]
    simp only [hdown, hback]
    rw [subw_of_le (by omega) (by omega)]

theorem Board.endAddress_eq : c.endAddress =
    c.ucHeap + c.totalHeapSize - c.heapStructSize - (c.ucHeap + c.totalHeapSize) % c.byteAlignment := by
  have hle := c.heap_le
  have hS := c.struct_pos
  have hbig := hl
  unfold Board.Large at hbig
  have hsum : subw c.sizeBits (addw c.sizeBits (c.ucHeap + c.pad) (c.totalHeapSize - c.pad)) c.heapStructSize =
      c.ucHeap + c.totalHeapSize - c.heapStructSize := by
    have hadd : c.ucHeap + c.pad + (c.totalHeapSize - c.pad) = c.ucHeap + c.totalHeapSize := by omega
    rcases Nat.eq_or_lt_of_le hle with heq | hlt'
    · have hmod : c.heapStructSize % 2 ^ c.sizeBits = c.heapStructSize := Nat.mod_eq_of_lt (by omega)
      rw [addw, hadd, heq, Nat.mod_self, subw, hmod, Nat.zero_add]
      exact Nat.mod_eq_of_lt (by omega)
    · rw [addw_of_lt (by omega), hadd, subw_of_le (by omega) hlt']
  rw [Board.endAddress, Board.alignedHeap_eq hl]
  simp only [hsum]
  rw [c.alignDown_eq (by omega)]
  -- a header is a multiple of the alignment
  have hmod : (c.ucHeap + c.totalHeapSize - c.heapStructSize) % c.byteAlignment =
      (c.ucHeap + c.totalHeapSize) % c.byteAlignment := by
    obtain ⟨q, hq⟩ := c.struct_dvd
    have hsplit : c.ucHeap + c.totalHeapSize = c.ucHeap + c.totalHeapSize - c.heapStructSize + c.byteAlignment * q := by
      omega
    conv_rhs => rw [hsplit, Nat.add_mul_mod_self_left]
  rw [hmod]

theorem Board.endAddress_dvd : c.byteAlignment ∣ c.endAddress := by
  have h : c.byteAlignment ∣ c.ucHeap + c.totalHeapSize -
      (c.ucHeap + c.totalHeapSize) % c.byteAlignment - c.heapStructSize :=
    Nat.dvd_sub (Nat.dvd_sub_mod _) c.struct_dvd
  rw [Board.endAddress_eq hl, Nat.sub_right_comm]
  exact h

theorem Board.start_dvd : c.byteAlignment ∣ c.alignedHeap.1 := by
  rw [Board.alignedHeap_eq hl]
  exact c.ucHeap_pad_dvd

theorem Board.heap_bounds : c.ucHeap ≤ c.alignedHeap.1 ∧
    c.alignedHeap.1 + c.heapStructSize ≤ c.endAddress ∧
    c.endAddress + c.heapStructSize ≤ c.ucHeap + c.totalHeapSize := by
  have hbig := hl
  unfold Board.Large at hbig
  rw [Board.endAddress_eq hl, Board.alignedHeap_eq hl]
  simp only
  omega

theorem Board.endAddress_lt : c.endAddress < 2 ^ c.sizeBits := by
  have := Board.heap_bounds hl
  have := c.heap_le
  have := c.struct_pos
  omega

theorem Board.xStart_ne {x : Nat} (h1 : c.alignedHeap.1 ≤ x) (h2 : x ≤ c.endAddress) : x ≠ c.xStart := by
  have := Board.heap_bounds hl
  have := c.apart
  have := c.struct_pos
  omega

end

end Sizes

/-! ## Inserting a block into the free list -/

variable {c : Board} {h h' : Heap} {l pre post bs : List Block} {o e f n : Nat}

def nextOf (h : Heap) (a : Nat) : Nat := (h.link a).pxNextFreeBlock

/-- The headers of the free blocks tell their sizes. -/
def Sized (h : Heap) (l : List Block) (e : Nat) : Prop :=
  Each false (fun o n => (h.link o).xBlockSize = n) l e

theorem nextOf_setLink (h : Heap) (a : Nat) (v : BlockLink) :
    nextOf (h.setLink a v) = update (nextOf h) a v.pxNextFreeBlock := by
  funext x
  by_cases hx : x = a
  · subst hx
    simp [nextOf, Heap.setLink]
  · simp [nextOf, Heap.setLink, update_of_ne hx]

theorem setLink_of_ne (h : Heap) {a x : Nat} (v : BlockLink) (hx : x ≠ a) :
    (h.setLink a v).link x = h.link x := update_of_ne hx ..

@[simp] theorem setLink_self (h : Heap) (a : Nat) (v : BlockLink) : (h.setLink a v).link a = v :=
  update_self ..

theorem Sized.setLink {v : BlockLink} {a : Nat} (hl : Sized h l e)
    (ha : (⟨a, false⟩ : Block) ∉ l) : Sized (h.setLink a v) l e :=
  hl.imp fun x n hx hn => by
    have hne : x ≠ a := fun he => ha (he ▸ hx)
    rw [setLink_of_ne h v hne]
    exact hn

theorem seekInsert_eq : ∀ {l : List Block} {a fuel : Nat}, FreeList (nextOf h) a l f →
    (∀ x, (⟨x, false⟩ : Block) ∈ l → x < o) → o ≤ f → l.length < fuel →
    seekInsert h o fuel a = some (lastFree a l)
  | [], a, fuel + 1, hl, _, hf, _ => by
    have hnext : (h.link a).pxNextFreeBlock = f := hl
    rw [seekInsert, if_neg (by omega)]
    rfl
  | ⟨x, true⟩ :: l, a, fuel + 1, hl, hx, hf, hlen => by
    rw [length_cons] at hlen
    exact seekInsert_eq (l := l) (a := a) hl (fun y hy => hx y (mem_cons_of_mem _ hy)) hf (by omega)
  | ⟨x, false⟩ :: l, a, fuel + 1, hl, hx, hf, hlen => by
    have hnext : (h.link a).pxNextFreeBlock = x := hl.1
    rw [length_cons] at hlen
    rw [seekInsert, hnext, if_pos (hx x (mem_cons_self ..))]
    exact seekInsert_eq hl.2 (fun y hy => hx y (mem_cons_of_mem _ hy)) hf (by omega)

theorem mergeBehind_eq {it b : Nat} (hs : Spaced c.heapStructSize post e) (hb : b < start post e)
    (he : h.pxEnd = e) (hlt : e < 2 ^ c.sizeBits) (hlist : FreeList (nextOf h) it post e)
    (hsized : Sized h post e) (hsize : (h.link b).xBlockSize = start post e - b) :
    mergeBehind c h it b =
      h.setLink b ⟨firstFree (dropFree post) e, start (dropFree post) e - b⟩ := by
  have hS := c.struct_pos
  have hend := hs.start_le
  have hnext : (h.link it).pxNextFreeBlock = firstFree post e := hlist.next_eq
  have hsum : addw c.sizeBits b (h.link b).xBlockSize = start post e := by
    rw [hsize, addw_of_lt (by omega)]
    omega
  unfold mergeBehind
  simp only [hnext, hsum]
  rcases post with _ | ⟨⟨n, _ | _⟩, post'⟩
  · simp [he, Heap.setNext, hsize, dropFree]
  · have hroom := hs.1
    have hpost := hs.2.start_le
    simp only [start_cons] at hb hsize hroom
    have hn : n ≠ h.pxEnd := by omega
    have hnb : n ≠ b := by omega
    have hnsize : (h.link n).xBlockSize = start post' e - n := hsized.1 rfl
    have hnnext : (h.link n).pxNextFreeBlock = firstFree post' e := FreeList.next_eq hlist.2
    have hadd : addw c.sizeBits (n - b) (start post' e - n) = start post' e - b := by
      rw [addw_of_lt (by omega)]
      omega
    simp only [start_cons, firstFree_free, if_true, dropFree_free, Heap.setSize, Heap.setNext, hsize,
      hnsize, hadd, ne_eq, hn, not_false_eq_true, setLink_of_ne h _ hnb, hnnext, setLink_self]
    simp [Heap.setLink]
  · have hroom := hs.1
    have hfirst := start_le_firstFree hs.2
    simp only [start_cons] at hsize hroom
    have hne : n ≠ firstFree post' e := by omega
    simp only [start_cons, firstFree_used, if_neg hne, Heap.setNext, hsize, dropFree]

/-- A block of `post`'s left neighbour that is in no list yet: `o`, between `pre` and
`post`. -/
structure Ready (c : Board) (h : Heap) (pre : List Block) (o : Nat) (post : List Block) : Prop where
  spaced : Spaced c.heapStructSize (pre ++ ⟨o, true⟩ :: post) c.endAddress
  starts : c.alignedHeap.1 ≤ start (pre ++ ⟨o, true⟩ :: post) c.endAddress
  ends : h.pxEnd = c.endAddress
  list : FreeList (nextOf h) c.xStart (pre ++ ⟨o, true⟩ :: post) c.endAddress
  xStart : (h.link c.xStart).xBlockSize = 0
  before : Sized h pre o
  behind : Sized h post c.endAddress
  size : (h.link o).xBlockSize = start post c.endAddress - o

/-- The block is in the free list, merged with its neighbours. -/
structure Inserted (c : Board) (h : Heap) (pre : List Block) (o : Nat) (post : List Block)
    (h' : Heap) : Prop where
  list : FreeList (nextOf h') c.xStart (absorb pre o ++ dropFree post) c.endAddress
  xStart : (h'.link c.xStart).xBlockSize = 0
  sized : Sized h' (absorb pre o ++ dropFree post) c.endAddress
  frame : ∀ x, x ≠ c.xStart → x ≠ o → (⟨x, false⟩ : Block) ∉ pre → h'.link x = h.link x
  rest : h' = { h with link := h'.link }

section Insert
variable (hl : c.Large) (hr : Ready c h pre o post)
include hl hr

omit hl in
theorem Ready.bounds : (∀ b ∈ pre, c.alignedHeap.1 ≤ b.off ∧ b.off < o) ∧ c.alignedHeap.1 ≤ o ∧
    o < start post c.endAddress ∧ start post c.endAddress ≤ c.endAddress ∧
    ∀ b ∈ post, start post c.endAddress ≤ b.off ∧ b.off < c.endAddress := by
  have hS := c.struct_pos
  obtain ⟨-, -, ho, hroom, hend, hpre, hpost⟩ := hr.spaced.around hS hr.starts
  exact ⟨hpre, ho, by omega, hend, hpost⟩

theorem Ready.seek : seekInsert h o c.enough c.xStart = some (lastFree c.xStart pre) := by
  obtain ⟨hpre, _, _, _, _⟩ := hr.bounds
  obtain ⟨hs, hroom, hpost⟩ := spaced_append.mp hr.spaced
  obtain ⟨hlist, _⟩ := freeList_append.mp hr.list
  have hlt := Board.endAddress_lt hl
  have hlen := hs.length_le c.struct_pos
  have hfirst := start_le_firstFree hpost
  simp only [start_cons] at hlen hroom
  refine seekInsert_eq hlist (fun x hx => (hpre _ hx).2) ?_ ?_
  · rw [firstFree_used]
    omega
  · unfold Board.enough
    omega

theorem Ready.insert_free {r : List Block} {p : Nat} (hpre : pre = r ++ [⟨p, false⟩]) :
    ∃ h', prvInsertBlockIntoFreeList c h o = some h' ∧ Inserted c h pre o post h' := by
  obtain ⟨hbpre, hbo, hbs, hbe, hbpost⟩ := hr.bounds
  have hlt := Board.endAddress_lt hl
  obtain ⟨hs, _, hpost⟩ := spaced_append.mp hr.spaced
  obtain ⟨_, hbehind⟩ := freeList_append.mp hr.list
  have hlast : lastFree c.xStart pre = p := by rw [hpre, lastFree_append]; rfl
  have hsize : (h.link p).xBlockSize = o - p := by
    have := hr.before
    rw [hpre] at this
    exact this.at
  have hpo := hbpre ⟨p, false⟩ (by simp [hpre])
  simp only at hpo
  have hsum : addw c.sizeBits p (h.link p).xBlockSize = o := by
    rw [hsize, addw_of_lt (by omega)]
    omega
  have hadd : addw c.sizeBits (o - p) (start post c.endAddress - o) = start post c.endAddress - p := by
    rw [addw_of_lt (by omega)]
    omega
  -- the two are one block now
  set h1 := h.setSize p (start post c.endAddress - p) with hh1
  have hbefore : mergeBefore c h p o = (h1, p) := by
    rw [mergeBefore, if_pos hsum, hsize, hr.size, hadd]
  have hnext1 : nextOf h1 = nextOf h := by
    rw [hh1, Heap.setSize, nextOf_setLink, update_eq_self_iff]
    rfl
  have hnp : ∀ {u : Bool}, (⟨p, u⟩ : Block) ∉ post := fun hm => by
    have := hbpost _ hm
    simp only at this
    omega
  rw [hlast, freeList_used] at hbehind
  have hnext2 : FreeList (nextOf h1) p post c.endAddress := by rw [hnext1]; exact hbehind
  have hmerge := mergeBehind_eq (c := c) (h := h1) (b := p) hpost (by omega) hr.ends hlt hnext2 (hr.behind.setLink hnp)
    (by simp [hh1, Heap.setSize])
  set v : BlockLink := ⟨firstFree (dropFree post) c.endAddress, start (dropFree post) c.endAddress - p⟩
    with hv
  have hset : h1.setLink p v = h.setLink p v := by
    simp [hh1, Heap.setSize, Heap.setLink]
  rw [hset] at hmerge
  refine ⟨h.setLink p v, ?_, ?_⟩
  · rw [prvInsertBlockIntoFreeList, hr.seek hl, hlast]
    simp only [bind, Option.bind_some, hbefore, hmerge, ne_eq, not_true_eq_false, if_false, pure]
  · have hxp : p ≠ c.xStart := Board.xStart_ne hl hpo.1 (by omega)
    have habs : absorb pre o ++ dropFree post = r ++ ⟨p, false⟩ :: dropFree post := by
      rw [hpre, absorb_free, append_assoc, singleton_append]
    rw [hpre] at hs
    obtain ⟨hsr, _⟩ := spaced_append.mp hs
    have hpr : (⟨p, false⟩ : Block) ∉ r := fun hm => by
      have hS := c.struct_pos
      have hle := hsr.off_le hm
      simp only [start_cons] at hle
      omega
    have hlist := hr.list
    rw [hpre, append_assoc, singleton_append] at hlist
    obtain ⟨hlr, hlp⟩ := freeList_append.mp hlist
    refine ⟨?_, ?_, ?_, fun x hx hxo hxpre => ?_, rfl⟩
    · rw [habs, nextOf_setLink]
      refine freeList_append.mpr ⟨?_, ?_, ?_⟩
      · refine hlr.frame (update_of_ne hxp.symm _ _) fun x hx => update_of_ne ?_ _ _
        exact fun he => hpr (he ▸ hx)
      · have hne : lastFree c.xStart r ≠ p := by
          rcases lastFree_mem (l := r) (a := c.xStart) with ⟨he, _⟩ | hm
          · rw [he]
            exact hxp.symm
          · exact fun he => hpr (he ▸ hm)
        rw [update_of_ne hne]
        exact hlp.1
      · obtain ⟨a, ha⟩ := hbehind.dropFree
        refine FreeList.rehead ha (update_self ..) fun x hx => update_of_ne ?_ _ _
        exact fun he => hnp (he ▸ mem_dropFree hx)
    · rw [setLink_of_ne h v hxp.symm]
      exact hr.xStart
    · have hsz := hr.before
      rw [hpre] at hsz
      obtain ⟨hszr, _⟩ := each_append.mp hsz
      rw [habs]
      refine each_append.mpr ⟨Sized.setLink hszr hpr, fun _ => ?_, ?_⟩
      · show ((h.setLink p v).link p).xBlockSize = _
        rw [setLink_self]
      · exact Sized.setLink hr.behind.dropFree fun hm => hnp (mem_dropFree hm)
    · have hne : x ≠ p := fun he => hxpre (by rw [he, hpre]; simp)
      exact setLink_of_ne h v hne

theorem Ready.insert_used (habs : absorb pre o = pre ++ [⟨o, false⟩])
    (hgap : addw c.sizeBits (lastFree c.xStart pre) (h.link (lastFree c.xStart pre)).xBlockSize ≠ o) :
    ∃ h', prvInsertBlockIntoFreeList c h o = some h' ∧ Inserted c h pre o post h' := by
  obtain ⟨hbpre, hbo, hbs, hbe, hbpost⟩ := hr.bounds
  have hlt := Board.endAddress_lt hl
  obtain ⟨hs, _, hpost⟩ := spaced_append.mp hr.spaced
  obtain ⟨hlpre, hbehind⟩ := freeList_append.mp hr.list
  rw [freeList_used] at hbehind
  set it := lastFree c.xStart pre with hit
  have hxo : o ≠ c.xStart := Board.xStart_ne hl hbo (by omega)
  have hxpre : ∀ x, (⟨x, false⟩ : Block) ∈ pre → x ≠ c.xStart := fun x hx => by
    have := hbpre _ hx
    exact Board.xStart_ne hl this.1 (by simp only at this; omega)
  have hopre : (⟨o, false⟩ : Block) ∉ pre := fun hm => (hbpre _ hm).2.ne rfl
  have hopost : ∀ x, (⟨x, false⟩ : Block) ∈ post → o < x := fun x hx => hbs.trans_le (hbpost _ hx).1
  -- the block the walk ended at
  have hwhere : it = c.xStart ∨ (⟨it, false⟩ : Block) ∈ pre :=
    (lastFree_mem (l := pre) (a := c.xStart)).imp And.left id
  have hito : it ≠ o := by
    rcases hwhere with he | hm
    · rw [he]
      exact hxo.symm
    · exact (hbpre _ hm).2.ne
  have hitpost : ∀ x, (⟨x, false⟩ : Block) ∈ post → x ≠ it := by
    intro x hx
    have hxb := hbpost _ hx
    simp only at hxb
    rcases hwhere with he | hm
    · rw [he]
      exact Board.xStart_ne hl (by omega) hxb.2.le
    · have := (hbpre _ hm).2
      simp only at this
      omega
  have hbefore : mergeBefore c h it o = (h, o) := if_neg hgap
  have hmerge := mergeBehind_eq hpost hbs hr.ends hlt hbehind hr.behind hr.size
  set v : BlockLink := ⟨firstFree (dropFree post) c.endAddress, start (dropFree post) c.endAddress - o⟩
    with hv
  set h1 := h.setLink o v with hh1
  have hit1 : h1.link it = h.link it := setLink_of_ne h v hito
  have hnext : nextOf (h1.setNext it o) = update (update (nextOf h) o v.pxNextFreeBlock) it o := by
    rw [Heap.setNext, nextOf_setLink, hh1, nextOf_setLink]
  have hsame : ∀ x, x ≠ o → ((h1.setNext it o).link x).xBlockSize = (h.link x).xBlockSize := by
    intro x hx
    by_cases hxi : x = it
    · rw [hxi, Heap.setNext, setLink_self, hit1]
    · rw [Heap.setNext, setLink_of_ne h1 _ hxi, setLink_of_ne h v hx]
  refine ⟨h1.setNext it o, ?_, ?_⟩
  · rw [prvInsertBlockIntoFreeList, hr.seek hl, ← hit]
    simp only [bind, Option.bind_some, hbefore, hmerge, pure, if_pos hito]
  · have hlist : absorb pre o ++ dropFree post = pre ++ ⟨o, false⟩ :: dropFree post := by
      rw [habs, append_assoc, singleton_append]
    refine ⟨?_, ?_, ?_, fun x hx hxo' hxp => ?_, rfl⟩
    · rw [hlist, hnext]
      refine freeList_append.mpr ⟨?_, update_self .., ?_⟩
      · refine FreeList.relink c.struct_pos (FreeList.frame hlpre ?_ fun x hx => ?_) hs hxpre
        · exact update_of_ne hxo.symm _ _
        · have hne : x ≠ o := fun he => hopre (he ▸ hx)
          exact update_of_ne hne _ _
      · obtain ⟨a, ha⟩ := hbehind.dropFree
        refine FreeList.rehead ha ?_ fun x hx => ?_
        · rw [update_of_ne hito.symm, update_self]
        · have hx' := mem_dropFree hx
          rw [update_of_ne (hitpost x hx'), update_of_ne (hopost x hx').ne']
    · rw [hsame _ hxo.symm]
      exact hr.xStart
    · rw [hlist]
      refine each_append.mpr ⟨hr.before.imp fun x n hx hn => ?_, fun _ => ?_,
        hr.behind.dropFree.imp fun x n hx hn => ?_⟩
      · rw [hsame x fun he => hopre (he ▸ hx)]
        exact hn
      · show ((h1.setNext it o).link o).xBlockSize = _
        rw [Heap.setNext, setLink_of_ne h1 _ hito.symm, hh1, setLink_self]
      · rw [hsame x (hopost x (mem_dropFree hx)).ne']
        exact hn
    · have hxi : x ≠ it := by
        rcases hwhere with he | hm
        · rw [he]
          exact hx
        · exact fun he => hxp (he ▸ hm)
      rw [Heap.setNext, setLink_of_ne h1 _ hxi, setLink_of_ne h v hxo']

/-- **`prvInsertBlockIntoFreeList`** returns, with the block in the list. -/
theorem Ready.insert : ∃ h', prvInsertBlockIntoFreeList c h o = some h' ∧ Inserted c h pre o post h' := by
  have hlt := Board.endAddress_lt hl
  obtain ⟨hbpre, hbo, hbs, hbe, _⟩ := hr.bounds
  have hempty : lastFree c.xStart pre = c.xStart →
      addw c.sizeBits (lastFree c.xStart pre) (h.link (lastFree c.xStart pre)).xBlockSize ≠ o := by
    intro he
    have := c.xStart_lt
    rw [he, hr.xStart, addw_of_lt (by omega), Nat.add_zero]
    exact (Board.xStart_ne hl hbo (by omega)).symm
  rcases last_cases pre with he | ⟨r, p, he⟩ | ⟨r, p, he⟩
  · refine hr.insert_used hl (by rw [he]; rfl) (hempty (by rw [he]; rfl))
  · exact hr.insert_free hl he
  · refine hr.insert_used hl (by rw [he, absorb_used]) ?_
    have hlast : lastFree c.xStart pre = lastFree c.xStart r := by rw [he, lastFree_append]; rfl
    rcases lastFree_mem (l := r) (a := c.xStart) with ⟨hx, _⟩ | hm
    · exact hempty (hlast.trans hx)
    · -- a used block lies between
      set q := lastFree c.xStart r
      obtain ⟨r1, r2, hr12⟩ := append_of_mem hm
      obtain ⟨hs, _, _⟩ := spaced_append.mp hr.spaced
      have hsz := hr.before
      have hpre : pre = r1 ++ ⟨q, false⟩ :: (r2 ++ [⟨p, true⟩]) := by
        rw [he, hr12, append_assoc, cons_append]
      rw [hpre] at hs hsz
      have hsize : (h.link q).xBlockSize = start (r2 ++ [⟨p, true⟩]) o - q := hsz.at
      obtain ⟨_, hroom, hs2⟩ := spaced_append.mp hs
      have hp : start (r2 ++ [⟨p, true⟩]) o ≤ p := hs2.start_le_off (b := ⟨p, true⟩) (by simp)
      have hpo := (hbpre ⟨p, true⟩ (by simp [he])).2
      simp only [start_cons] at hroom hpo hs2
      rw [hlast, hsize, addw_of_lt (by omega)]
      omega

end Insert

end RtosKernel.FreeRTOS.Heap4
