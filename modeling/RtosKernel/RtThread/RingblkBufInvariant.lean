import RtosKernel.Lib.Spans
import RtosKernel.RtThread.RingblkBuf

/-! # The ring block buffer accounts for its descriptors

`rt_rbb_blk_alloc` takes a descriptor off the free list before it knows whether there is space, and does not put
it back when there is none; into an empty list it places a block of any size. -/
namespace RtosKernel.RtThread.RingblkBuf
open Lib.Word Lib.LinkedList Lib.Spans Function Option
open RtThread.Def RtThread.Service
open List (map_append map_cons mem_append mem_append_right mem_cons mem_cons_of_mem nodup_append nodup_cons range)

variable {rbb : RtRbb} {fl bl : List Nat} {i new buf blkSize block : Nat}

def span (rbb : RtRbb) (i : Nat) : Span := ⟨(rbb.blkSet i).buf, (rbb.blkSet i).size⟩

/-- The free list holds `fl`, the block list holds `bl`, and every descriptor is
on exactly one of them, with the status that goes with it. -/
structure Lists (rbb : RtRbb) (fl bl : List Nat) : Prop where
  free : Chain rbb.next (rbb.next .freeList) (fl.map .blk)
  blks : Chain rbb.next (rbb.next .blkList) (bl.map .blk)
  nodup : (fl ++ bl).Nodup
  mem : ∀ i, i ∈ fl ++ bl ↔ i < rbb.blkMaxNum
  unused : ∀ i ∈ fl, (rbb.blkSet i).status = .unused
  inUse : ∀ i ∈ bl, (rbb.blkSet i).status ≠ .unused
  tail : rbb.tail = (Node.blkList :: bl.map .blk).getLast (by simp)

/-- The part of it that also holds when descriptors are on neither list. -/
structure Linked (rbb : RtRbb) (fl bl : List Nat) : Prop where
  free : Chain rbb.next (rbb.next .freeList) (fl.map .blk)
  blks : Chain rbb.next (rbb.next .blkList) (bl.map .blk)
  nodup : (fl ++ bl).Nodup
  lt : ∀ i ∈ fl ++ bl, i < rbb.blkMaxNum
  unused : ∀ i ∈ fl, (rbb.blkSet i).status = .unused
  inUse : ∀ i ∈ bl, (rbb.blkSet i).status ≠ .unused
  tail : rbb.tail = (Node.blkList :: bl.map .blk).getLast (by simp)

theorem Lists.linked (h : Lists rbb fl bl) : Linked rbb fl bl :=
  ⟨h.free, h.blks, h.nodup, fun i hi => (h.mem i).mp hi, h.unused, h.inUse, h.tail⟩

theorem Linked.lists (h : Linked rbb fl bl)
    (hcover : ∀ i < rbb.blkMaxNum, i ∈ fl ++ bl) : Lists rbb fl bl :=
  ⟨h.free, h.blks, h.nodup, fun i => ⟨h.lt i, hcover i⟩, h.unused, h.inUse, h.tail⟩

/-- Every descriptor is on one list, `tail` is the last node of the block list,
and the blocks lie inside the buffer and do not overlap. -/
def Accounted (rbb : RtRbb) : Prop :=
  ∃ fl bl, Lists rbb fl bl ∧
    (∀ i ∈ bl, rbb.buf ≤ (span rbb i).start ∧ (span rbb i).fin ≤ rbb.buf + rbb.bufSize) ∧
    bl.Pairwise fun i j => (span rbb i).Apart (span rbb j)

/-- What the calls keep: the lists, and the ring shape of the blocks. -/
def Inv (rbb : RtRbb) : Prop :=
  rbb.buf + rbb.bufSize < 2 ^ 32 ∧
    ∃ fl bl, Lists rbb fl bl ∧ RingLayout rbb.buf (rbb.buf + rbb.bufSize) (bl.map (span rbb))

theorem Inv.accounted (h : Inv rbb) : Accounted rbb := by
  obtain ⟨_, fl, bl, hl, hr⟩ := h
  exact ⟨fl, bl, hl, fun i hi => hr.bounds (List.mem_map_of_mem hi), List.pairwise_map.mp hr.apart⟩

theorem blk_injective : Function.Injective Node.blk := fun _ _ h => Node.blk.inj h

theorem mem_map_blk {l : List Nat} : Node.blk i ∈ l.map .blk ↔ i ∈ l := by
  simp

theorem blkList_notMem (l : List Nat) : Node.blkList ∉ l.map .blk := by simp

theorem freeList_notMem (l : List Nat) : Node.freeList ∉ l.map .blk := by simp

theorem Linked.nodup_blks (h : Linked rbb fl bl) : (Node.blkList :: bl.map .blk).Nodup :=
  nodup_cons.mpr ⟨blkList_notMem _, (nodup_append.mp h.nodup).2.1.map blk_injective⟩

theorem Linked.length_le (h : Linked rbb fl bl) : bl.length ≤ rbb.blkMaxNum := by
  have hsub : bl ⊆ range rbb.blkMaxNum := fun i hi =>
    List.mem_range.mpr (h.lt i (mem_append_right _ hi))
  simpa using ((nodup_append.mp h.nodup).2.1.subperm hsub).length_le

theorem Linked.notMem_free (h : Linked rbb fl bl) (hi : i ∈ bl) :
    i ∉ fl := fun hf => (nodup_append.mp h.nodup).2.2 i hf i hi rfl

/-! ## Initialisation -/

theorem initBlk_lists
    (hf : Chain rbb.next (rbb.next .freeList) (fl.map .blk)) (hb : rbb.next .blkList = none)
    (hi : i ∉ fl) (hu : ∀ j ∈ fl, (rbb.blkSet j).status = .unused) :
    let r := initBlk rbb i
    Chain r.next (r.next .freeList) ((i :: fl).map .blk) ∧ r.next .blkList = none ∧
      (∀ j ∈ i :: fl, (r.blkSet j).status = .unused) := by
  intro r
  have hf' : Chain (rtSlistInit rbb.next (.blk i)) (rtSlistInit rbb.next (.blk i) .freeList)
      (fl.map .blk) := by
    exact hf.update (by simpa using hi)
  refine ⟨?_, ?_, ?_⟩
  · exact rtSlistInsert_chain hf' (by simp [hi]) (freeList_notMem _)
  · simp [r, initBlk, rtSlistInsert, rtSlistInit, hb]
  · intro j hj
    by_cases hji : j = i
    · simp [r, initBlk, hji]
    · have : j ∈ fl := (mem_cons.mp hj).resolve_left hji
      simp [r, initBlk, update_of_ne hji, hu j this]

theorem foldl_initBlk_fields (l : List Nat) : ∀ rbb : RtRbb,
    (l.foldl initBlk rbb).buf = rbb.buf ∧ (l.foldl initBlk rbb).bufSize = rbb.bufSize ∧
      (l.foldl initBlk rbb).blkMaxNum = rbb.blkMaxNum ∧ (l.foldl initBlk rbb).tail = rbb.tail := by
  induction l with
  | nil => intro rbb; exact ⟨rfl, rfl, rfl, rfl⟩
  | cons i l ih => intro rbb; exact ih (initBlk rbb i)

/-- The loop of `rt_rbb_init` after `k` rounds: the free list holds the
descriptors so far, last one first. -/
theorem foldl_initBlk (rbb : RtRbb) (hf : rbb.next .freeList = none)
    (hb : rbb.next .blkList = none) (k : Nat) :
    let r := (range k).foldl initBlk rbb
    Chain r.next (r.next .freeList) ((range k).reverse.map .blk) ∧ r.next .blkList = none ∧
      (∀ j ∈ (range k).reverse, (r.blkSet j).status = .unused) := by
  induction k with
  | zero => exact ⟨hf, hb, by simp⟩
  | succ k ih =>
    intro r
    obtain ⟨h1, h2, h3⟩ := ih
    have hr : r = initBlk ((range k).foldl initBlk rbb) k := by
      simp [r, List.range_succ]
    rw [hr, List.range_succ, List.reverse_append]
    exact initBlk_lists h1 h2 (by simp) h3

theorem rtRbbInit_inv (buf : Buffer) (blockSet : Nat → RtRbbBlk) (n : Nat) : Inv (rtRbbInit buf blockSet n) := by
  obtain ⟨hbuf, hsize, hn, htail⟩ := foldl_initBlk_fields (range n)
    { buf := buf.addr, bufSize := buf.size, blkSet := blockSet, blkMaxNum := n,
      next := fun _ => none, tail := .blkList }
  obtain ⟨hf, hb, hu⟩ := foldl_initBlk
    { buf := buf.addr, bufSize := buf.size, blkSet := blockSet, blkMaxNum := n,
      next := fun _ => none, tail := .blkList } rfl rfl n
  refine ⟨?_, (range n).reverse, [], ⟨hf, hb, ?_, ?_, hu, by simp, htail⟩, ?_⟩
  · unfold rtRbbInit; rw [hbuf, hsize]; exact buf.inSpace
  · simpa using List.nodup_range
  · intro i
    unfold rtRbbInit
    rw [hn]
    simp
  · exact RingLayout.nil (Nat.le_add_right _ _)

/-! ## Allocation -/

/-- The free list has given up its first descriptor `new`, which is on no list. -/
structure Taken (rbb : RtRbb) (new : Nat) (fl bl : List Nat) : Prop where
  free : Chain rbb.next (rbb.next .freeList) (fl.map .blk)
  blks : Chain rbb.next (rbb.next .blkList) (bl.map .blk)
  nodup : (new :: fl ++ bl).Nodup
  mem : ∀ i, i ∈ new :: fl ++ bl ↔ i < rbb.blkMaxNum
  unused : ∀ i ∈ fl, (rbb.blkSet i).status = .unused
  inUse : ∀ i ∈ bl, (rbb.blkSet i).status ≠ .unused
  tail : rbb.tail = (Node.blkList :: bl.map .blk).getLast (by simp)

theorem Taken.linked (h : Taken rbb new fl bl) : Linked rbb fl bl :=
  ⟨h.free, h.blks, (nodup_cons.mp h.nodup).2, fun i hi => (h.mem i).mp (mem_cons_of_mem new hi),
    h.unused, h.inUse, h.tail⟩

theorem findEmptyBlkInSet_nil (h : Linked rbb [] bl) : findEmptyBlkInSet rbb = some (rbb, none) := by
  have : rbb.next .freeList = none := h.free
  simp [findEmptyBlkInSet, this]

theorem findEmptyBlkInSet_cons
    (h : Linked rbb (new :: fl) bl) :
    ∃ next, findEmptyBlkInSet rbb = some ({ rbb with next := next }, some new) ∧
      Linked { rbb with next := next } fl bl ∧ next .blkList = rbb.next .blkList := by
  have hfirst : rbb.next .freeList = some (.blk new) := h.free.1
  have hstatus := h.unused new (by simp)
  refine ⟨update rbb.next .freeList (rbb.next (.blk new)), ?_, ?_, ?_⟩
  · simp [findEmptyBlkInSet, hfirst, entry, rtSlistRemove_first hfirst, rtAssert_of hstatus]
  · refine ⟨?_, ?_, (nodup_cons.mp h.nodup).2, fun i hi => h.lt i (mem_cons_of_mem new hi),
      fun i hi => h.unused i (mem_cons_of_mem new hi), h.inUse, h.tail⟩
    · have hrest : Chain rbb.next (rbb.next (.blk new)) (fl.map .blk) := h.free.2
      simpa only [update_self] using hrest.update (freeList_notMem fl)
    · simpa using h.blks.update (v := rbb.next (.blk new)) (freeList_notMem bl)
  · exact update_of_ne (by simp) _ _

theorem Lists.taken {next : Node → Option Node}
    (h : Lists rbb (new :: fl) bl) (hl : Linked { rbb with next := next } fl bl) :
    Taken { rbb with next := next } new fl bl :=
  ⟨hl.free, hl.blks, h.nodup, h.mem, hl.unused, hl.inUse, hl.tail⟩

theorem getLast_blks_ne_freeList (bl : List Nat) : (Node.blkList :: bl.map .blk).getLast (by simp) ≠ .freeList := by
  intro e
  have := List.getLast_mem (l := Node.blkList :: bl.map .blk) (by simp)
  rw [e] at this
  simp at this

theorem getLast_blks_notMem (h : (fl ++ bl).Nodup) :
    (Node.blkList :: bl.map .blk).getLast (by simp) ∉ fl.map .blk := by
  intro hm
  have hl := List.getLast_mem (l := Node.blkList :: bl.map .blk) (by simp)
  rcases mem_cons.mp hl with e | hb
  · rw [e] at hm; simp at hm
  · obtain ⟨i, hi, he⟩ := List.mem_map.mp hm
    rw [← he] at hb
    exact (nodup_append.mp h).2.2 i hi i (mem_map_blk.mp hb) rfl

theorem place_linked
    (h : Linked rbb fl bl) (hnew : new ∉ fl ++ bl) (hlt : new < rbb.blkMaxNum) :
    Linked (place rbb new buf blkSize).1 fl (bl ++ [new]) := by
  have hnf : new ∉ fl := fun hm => hnew (List.mem_append_left _ hm)
  have hnb : new ∉ bl := fun hm => hnew (mem_append_right _ hm)
  refine ⟨?_, ?_, ?_, ?_, ?_, ?_, ?_⟩
  · -- the free list is not touched
    have hfree := getLast_blks_ne_freeList bl
    have hmem := getLast_blks_notMem h.nodup
    have hhead : (place rbb new buf blkSize).1.next .freeList = rbb.next .freeList := by
      simp only [place, listAppend, h.tail]
      rw [update_of_ne (by simp), update_of_ne hfree.symm]
    rw [hhead]
    simp only [place, listAppend, h.tail]
    exact (h.free.update hmem).update (by simpa using hnf)
  · have := h.blks.snoc (n := .blk new) h.nodup_blks (by simp [hnb])
    simpa [place, listAppend, h.tail] using this
  · rw [← List.append_assoc]
    exact List.Nodup.append h.nodup (by simp) (by simpa using hnew)
  · intro i hi
    rw [← List.append_assoc] at hi
    rcases mem_append.mp hi with hi | hi
    · exact h.lt i hi
    · rw [List.mem_singleton.mp hi]
      exact hlt
  · intro i hi
    have : i ≠ new := fun e => hnf (e ▸ hi)
    simpa [place, listAppend, update_of_ne this] using h.unused i hi
  · intro i hi
    by_cases he : i = new
    · simp [place, listAppend, he]
    · have : i ∈ bl := (mem_append.mp hi).resolve_right (by simp [he])
      simpa [place, listAppend, update_of_ne he] using h.inUse i this
  · simp [place, listAppend]

theorem place_lists
    (h : Taken rbb new fl bl) : Lists (place rbb new buf blkSize).1 fl (bl ++ [new]) := by
  refine (place_linked h.linked (nodup_cons.mp h.nodup).1 ((h.mem new).mp (by simp))).lists ?_
  intro i hi
  have := (h.mem i).mpr hi
  simp only [List.cons_append, mem_cons, mem_append, List.not_mem_nil, or_false] at this ⊢
  tauto

theorem place_span
    (h : Taken rbb new fl bl) (hs : blkSize < 2 ^ 24) :
    (bl ++ [new]).map (span (place rbb new buf blkSize).1) =
      bl.map (span rbb) ++ [⟨buf, blkSize⟩] := by
  have hnew : new ∉ fl ++ bl := (nodup_cons.mp h.nodup).1
  rw [map_append]
  congr 1
  · apply List.map_congr_left
    intro i hi
    have : i ≠ new := fun e => hnew (mem_append_right _ (e ▸ hi))
    simp [span, place, listAppend, update_of_ne this]
  · simp only [span, place, listAppend, map_cons, update_self, List.map_nil]
    rw [Nat.mod_eq_of_lt hs]

/-- An allocation finds space. With no block in use the buffer is large enough; otherwise the block fits behind
the last block or, when the blocks have not wrapped, before the first one. Once they have wrapped the last block
must end before the first one starts, or an empty block would hide that they have. -/
def Fits (rbb : RtRbb) (blkSize : Nat) : Prop :=
  match (rbb.next .blkList).bind entry, entry rbb.tail with
  | some first, some last =>
    let head := rbb.blkSet first
    let tail := rbb.blkSet last
    if head.buf ≤ tail.buf then
      tail.buf + tail.size + blkSize ≤ rbb.buf + rbb.bufSize ∨ rbb.buf + blkSize ≤ head.buf
    else tail.buf + tail.size < head.buf ∧ tail.buf + tail.size + blkSize ≤ head.buf
  | _, _ => blkSize ≤ rbb.bufSize

theorem tail_of_getLast {last : Nat} (h : rbb.tail = (Node.blkList :: bl.map .blk).getLast (by simp))
    (hl : bl.getLast? = some last) : rbb.tail = .blk last := by
  obtain ⟨bl', rfl⟩ := List.getLast?_eq_some_iff.mp hl
  rw [h]
  simp

/-- The successful branches of an allocation: the block is placed where the ring
shape allows it. -/
theorem place_inv
    (hspace : rbb.buf + rbb.bufSize < 2 ^ 32) (h : Taken rbb new fl bl) (hs : blkSize < 2 ^ 24)
    (hr : RingLayout rbb.buf (rbb.buf + rbb.bufSize) (bl.map (span rbb) ++ [⟨buf, blkSize⟩])) :
    Inv (place rbb new buf blkSize).1 := by
  refine ⟨hspace, fl, bl ++ [new], place_lists h, ?_⟩
  rw [place_span h hs]
  exact hr

/-- **Allocation.** An allocation that finds space, or no descriptor, keeps the
invariant. -/
theorem rtRbbBlkAlloc_inv (h : Inv rbb) (hs : blkSize < 2 ^ 24)
    (hfits : rbb.next .freeList ≠ none → Fits rbb blkSize) : ∃ r, rtRbbBlkAlloc rbb blkSize = some r ∧ Inv r.1 := by
  obtain ⟨hspace, fl, bl, hl, hr⟩ := h
  cases fl with
  | nil =>
    refine ⟨(rbb, none), ?_, hspace, [], bl, hl, hr⟩
    simp only [rtRbbBlkAlloc, rtAssert_of hs, findEmptyBlkInSet_nil hl.linked, bind, bind_some]
  | cons new fl =>
    have hfits := hfits (by rw [hl.free.1]; simp)
    obtain ⟨next, hfind, htl, hnext⟩ := findEmptyBlkInSet_cons hl.linked
    have ht := hl.taken htl
    cases bl with
    | nil =>
      have hempty : rbb.next .blkList = none := hl.blks
      have hsize : blkSize ≤ rbb.bufSize := by simpa [Fits, hempty] using hfits
      refine ⟨place { rbb with next := next } new rbb.buf blkSize, ?_, place_inv hspace ht hs ?_⟩
      · simp only [rtRbbBlkAlloc, rtAssert_of hs, hfind, hnext, hempty, bind, bind_some]
      · exact RingLayout.single (by dsimp only; omega)
    | cons first rest =>
      have hfirst : rbb.next .blkList = some (.blk first) := hl.blks.1
      obtain ⟨last, hlast⟩ : ∃ last, (first :: rest).getLast? = some last :=
        ⟨_, List.getLast?_eq_getLast_of_ne_nil (by simp)⟩
      have htail : entry rbb.tail = some last := by rw [tail_of_getLast hl.tail hlast]; rfl
      have hmem : last ∈ first :: rest := List.mem_of_getLast? hlast
      -- the first and the last range of the layout
      have hh : ((first :: rest).map (span rbb)).head? = some (span rbb first) := by simp
      have hg : ((first :: rest).map (span rbb)).getLast? = some (span rbb last) := by
        rw [List.getLast?_map, hlast]; rfl
      obtain ⟨hb1, hb2⟩ := hr.bounds (List.mem_map_of_mem hmem)
      obtain ⟨hb3, hb4⟩ := hr.bounds (s := span rbb first) (by simp)
      have hfin : (span rbb last).fin = (rbb.blkSet last).buf + (rbb.blkSet last).size := rfl
      rw [hfin] at hb2
      have hend : add32 (rbb.blkSet last).buf (rbb.blkSet last).size =
          (rbb.blkSet last).buf + (rbb.blkSet last).size := add32_of_lt (by omega)
      have htop : add32 rbb.buf rbb.bufSize = rbb.buf + rbb.bufSize := add32_of_lt hspace
      have he1 := sub32_of_le hb2 hspace
      have he2 : sub32 (rbb.blkSet first).buf rbb.buf = (rbb.blkSet first).buf - rbb.buf :=
        sub32_of_le hb3 (by simp only [Span.fin, span] at hb4; omega)
      have hfirst' : entry (.blk first) = some first := rfl
      simp only [Fits, hfirst, bind_some, hfirst', htail] at hfits
      simp only [rtRbbBlkAlloc, rtAssert_of hs, hfind, hnext, hfirst, hfirst', htail, hend, htop,
        he1, he2, bind, bind_some]
      have hstart : ∀ i, (span rbb i).start = (rbb.blkSet i).buf := fun _ => rfl
      by_cases hw : (rbb.blkSet first).buf ≤ (rbb.blkSet last).buf
      · rw [if_pos hw] at hfits
        rw [if_pos hw]
        by_cases hfit1 : rbb.buf + rbb.bufSize -
            ((rbb.blkSet last).buf + (rbb.blkSet last).size) ≥ blkSize
        · rw [if_pos hfit1]
          exact ⟨_, rfl, place_inv hspace ht hs
            (hr.place_up hh hg hw (by rw [hfin]; omega))⟩
        · rw [if_neg hfit1]
          have hfit2 : (rbb.blkSet first).buf - rbb.buf ≥ blkSize := by omega
          rw [if_pos hfit2]
          exact ⟨_, rfl, place_inv hspace ht hs
            (hr.place_wrap hh hg hw (by omega) (by rw [hstart]; rw [hstart] at hb3; omega))⟩
      · rw [if_neg hw] at hfits
        rw [if_neg hw]
        have he3 : sub32 (rbb.blkSet first).buf ((rbb.blkSet last).buf + (rbb.blkSet last).size) =
            (rbb.blkSet first).buf - ((rbb.blkSet last).buf + (rbb.blkSet last).size) :=
          sub32_of_le (by omega) (by simp only [Span.fin, span] at hb4; omega)
        rw [he3, if_pos (by omega)]
        exact ⟨_, rfl, place_inv hspace ht hs
          (hr.place_low hh hg (by rw [hstart, hstart]; omega) (by rw [hfin, hstart]; omega)
            (by rw [hfin, hstart]; omega))⟩

/-! ## Put and get -/

theorem Lists.mem_blks (h : Lists rbb fl bl)
    (hi : i < rbb.blkMaxNum) (hs : (rbb.blkSet i).status ≠ .unused) : i ∈ bl :=
  (mem_append.mp ((h.mem i).mpr hi)).resolve_left fun hf => hs (h.unused i hf)

theorem setStatus_linked {st : RtRbbStatus}
    (h : Linked rbb fl bl) (hi : i ∈ bl) (hst : st ≠ .unused) :
    Linked { rbb with
      blkSet := update rbb.blkSet i { rbb.blkSet i with status := st } } fl bl := by
  refine ⟨h.free, h.blks, h.nodup, h.lt, ?_, ?_, h.tail⟩
  · intro j hj
    have : j ≠ i := fun e => h.notMem_free hi (e ▸ hj)
    simpa [update_of_ne this] using h.unused j hj
  · intro j hj
    by_cases he : j = i
    · simpa [he] using hst
    · simpa [update_of_ne he] using h.inUse j hj

theorem setStatus_inv {st : RtRbbStatus}
    (hspace : rbb.buf + rbb.bufSize < 2 ^ 32) (h : Lists rbb fl bl)
    (hr : RingLayout rbb.buf (rbb.buf + rbb.bufSize) (bl.map (span rbb))) (hi : i ∈ bl)
    (hst : st ≠ .unused) :
    Inv { rbb with
      blkSet := update rbb.blkSet i { rbb.blkSet i with status := st } } := by
  refine ⟨hspace, fl, bl, (setStatus_linked h.linked hi hst).lists fun i hi => (h.mem i).mpr hi, ?_⟩
  have hspan : span { rbb with
      blkSet := update rbb.blkSet i { rbb.blkSet i with status := st } } = span rbb := by
    funext j
    by_cases he : j = i
    · simp [span, he]
    · simp [span, update_of_ne he]
  rw [hspan]
  exact hr

theorem rtRbbBlkPut_inv (h : Inv rbb) (hb : block < rbb.blkMaxNum) (hs : (rbb.blkSet block).status = .inited) :
    ∃ r, rtRbbBlkPut rbb block = some r ∧ Inv r := by
  obtain ⟨hspace, fl, bl, hl, hr⟩ := h
  simp only [rtRbbBlkPut, rtAssert_of hs, bind, bind_some]
  refine ⟨_, rfl, ?_⟩
  exact setStatus_inv hspace hl hr (hl.mem_blks hb (by rw [hs]; decide)) (by decide)

theorem findPut_mem : ∀ {l : List Nat} {p : Option Node} {fuel : Nat},
    Chain rbb.next p (l.map .blk) → l.length < fuel →
    findPut rbb fuel p = some none ∨ ∃ i ∈ l, findPut rbb fuel p = some (some i)
  | [], p, fuel + 1, h, _ => by
    have hp : p = none := h
    subst hp
    exact .inl rfl
  | i :: l, p, fuel + 1, h, hf => by
    have hp : p = some (.blk i) := h.1
    subst hp
    have hrest : Chain rbb.next (rbb.next (.blk i)) (l.map .blk) := h.2
    simp only [findPut, entry, bind, bind_some]
    split
    · exact .inr ⟨i, by simp, rfl⟩
    · have hlt : l.length < fuel := by simp only [List.length_cons] at hf; omega
      rcases findPut_mem hrest hlt with hn | ⟨j, hj, he⟩
      · exact .inl hn
      · exact .inr ⟨j, by simp [hj], he⟩

theorem rtRbbBlkGet_inv (h : Inv rbb) : ∃ r, rtRbbBlkGet rbb = some r ∧ Inv r.1 := by
  obtain ⟨hspace, fl, bl, hl, hr⟩ := h
  have hlen := hl.linked.length_le
  have hfuel : bl.length < rbb.blkMaxNum + 1 := by omega
  rcases findPut_mem hl.blks hfuel with hn | ⟨i, hi, he⟩
  · refine ⟨(rbb, none), ?_, hspace, fl, bl, hl, hr⟩
    simp only [rtRbbBlkGet, hn, bind, bind_some]
  · refine ⟨(_, some i), by simp only [rtRbbBlkGet, he, bind, bind_some]; rfl, ?_⟩
    exact setStatus_inv hspace hl hr hi (by decide)

/-! ## Freeing -/

theorem listRemove_linked {pre post : List Nat} {b : Nat}
    (h : Linked rbb fl (pre ++ b :: post)) :
    ∃ next tail, listRemove rbb (.blk b) = some { rbb with next := next, tail := tail } ∧
      Linked { rbb with next := next, tail := tail } fl (pre ++ post) := by
  have hchain := h.blks
  have hnd := h.nodup_blks
  rw [map_append, map_cons] at hchain hnd
  have hndl : (pre ++ b :: post).Nodup := (nodup_append.mp h.nodup).2.1
  have hb : b ∉ pre ++ post := (nodup_cons.mp (List.nodup_middle.mp hndl)).1
  have hbf : b ∉ fl := h.notMem_free (by simp)
  have hpre : Node.blk b ∉ pre.map .blk := fun hm => hb (List.mem_append_left _ (mem_map_blk.mp hm))
  have hsub : (fl ++ (pre ++ post)).Sublist (fl ++ (pre ++ b :: post)) :=
    ((List.Sublist.refl pre).append (List.sublist_cons_self b post)).append_left fl
  have hlen := h.length_le
  rw [List.length_append, List.length_cons] at hlen
  have hfuel : (pre.map Node.blk).length < rbb.blkMaxNum + 1 := by rw [List.length_map]; omega
  have hseek := seekPrev_eq hchain hpre hfuel
  have hprev := hchain.next_prev
  have hunlink := hchain.unlink hnd
  -- the predecessor of the block in the list
  generalize hnode : (Node.blkList :: pre.map .blk).getLast (by simp) = node at hseek hprev hunlink
  have hnf : node ≠ .freeList := hnode ▸ getLast_blks_ne_freeList pre
  have hnodeFl : node ∉ fl.map .blk := by
    rw [← hnode]
    apply getLast_blks_notMem
    refine h.nodup.sublist ?_
    exact List.Sublist.append (List.Sublist.refl _) (List.sublist_append_left _ _)
  refine ⟨update (update rbb.next node (rbb.next (.blk b))) (.blk b) none,
    if rbb.tail = .blk b then node else rbb.tail, ?_, ?_⟩
  · simp only [listRemove, hseek, bind, bind_some, hprev]
  · refine ⟨?_, ?_, h.nodup.sublist hsub, fun i hi => h.lt i (hsub.subset hi), h.unused, ?_, ?_⟩
    · dsimp only
      rw [update_of_ne (by simp), update_of_ne hnf.symm]
      exact (h.free.update hnodeFl).update (by simpa using hbf)
    · dsimp only
      rw [update_of_ne (by simp), map_append]
      refine Chain.update hunlink ?_
      simpa using hb
    · intro i hi
      refine h.inUse i ?_
      rcases mem_append.mp hi with hi | hi
      · exact List.mem_append_left _ hi
      · exact mem_append_right _ (mem_cons_of_mem _ hi)
    · rcases List.eq_nil_or_concat' post with rfl | ⟨post', t, rfl⟩
      · have htail : rbb.tail = .blk b := by rw [h.tail]; simp
        rw [if_pos htail, ← hnode]
        simp
      · have htail : rbb.tail = .blk t := by rw [h.tail]; simp
        have hne : t ≠ b := fun e => hb (by simp [e])
        rw [htail, if_neg (by simpa using hne)]
        simp

/-- A freed block goes to the front of the free list; the other descriptors and the fields of
the buffer stay what they were. -/
theorem rtRbbBlkFree_linked {pre post : List Nat}
    (h : Linked rbb fl (pre ++ block :: post)) :
    ∃ next tail, rtRbbBlkFree rbb block = some { rbb with
        next := next
        tail := tail
        blkSet := update rbb.blkSet block { rbb.blkSet block with status := .unused } } ∧
      Linked { rbb with
        next := next
        tail := tail
        blkSet := update rbb.blkSet block { rbb.blkSet block with status := .unused } }
        (block :: fl) (pre ++ post) := by
  obtain ⟨next, tail, hrem, ht⟩ := listRemove_linked h
  have hnodup : (block :: (fl ++ (pre ++ post))).Nodup :=
    ((List.perm_middle.append_left fl).trans List.perm_middle).nodup_iff.mp h.nodup
  have hnew := (nodup_cons.mp hnodup).1
  have hnf : block ∉ fl := h.notMem_free (by simp)
  have hs := h.inUse block (by simp)
  simp only [rtRbbBlkFree, rtAssert_of hs, hrem, bind, bind_some]
  refine ⟨_, _, rfl, ?_, ?_, hnodup, ?_, ?_, ?_, ht.tail⟩
  · exact rtSlistInsert_chain ht.free (by simpa using hnf) (freeList_notMem _)
  · have hblk : Node.blk block ∉ (pre ++ post).map .blk := fun hm =>
      hnew (mem_append_right _ (mem_map_blk.mp hm))
    have := (ht.blks.update (v := next .freeList) hblk).update (v := some (.blk block))
      (freeList_notMem _)
    simpa [rtSlistInsert] using this
  · intro i hi
    rcases mem_cons.mp hi with rfl | hi
    · exact h.lt i (by simp)
    · exact ht.lt i hi
  · intro i hi
    by_cases he : i = block
    · simp [he]
    · have : i ∈ fl := (mem_cons.mp hi).resolve_left he
      simpa [update_of_ne he] using ht.unused i this
  · intro i hi
    have he : i ≠ block := fun e => hnew (mem_append_right _ (e ▸ hi))
    simpa [update_of_ne he] using ht.inUse i hi

theorem rtRbbBlkFree_inv (h : Inv rbb) (hb : block < rbb.blkMaxNum) (hs : (rbb.blkSet block).status ≠ .unused) :
    ∃ r, rtRbbBlkFree rbb block = some r ∧ Inv r := by
  obtain ⟨hspace, fl, bl, hl, hr⟩ := h
  obtain ⟨pre, post, rfl⟩ := List.append_of_mem (hl.mem_blks hb hs)
  obtain ⟨next, tail, hfree, ht⟩ := rtRbbBlkFree_linked hl.linked
  refine ⟨_, hfree, hspace, block :: fl, pre ++ post, ht.lists ?_, ?_⟩
  · intro i hi
    have := (hl.mem i).mpr hi
    simp only [List.cons_append, mem_cons, mem_append] at this ⊢
    tauto
  · have hsub : ((pre ++ post).map (span rbb)).Sublist ((pre ++ block :: post).map (span rbb)) :=
      List.Sublist.map _ (List.Sublist.append (List.Sublist.refl _) (List.sublist_cons_self _ _))
    have hnew : block ∉ pre ++ post :=
      (nodup_cons.mp (List.nodup_middle.mp (nodup_append.mp hl.nodup).2.1)).1
    have hspan : (pre ++ post).map (span { rbb with
        next := next
        tail := tail
        blkSet := update rbb.blkSet block { rbb.blkSet block with status := .unused } }) =
        (pre ++ post).map (span rbb) := by
      apply List.map_congr_left
      intro i hi
      have he : i ≠ block := fun e => hnew (e ▸ hi)
      simp [span, update_of_ne he]
    exact hspan ▸ hr.sublist hsub

end RtosKernel.RtThread.RingblkBuf
