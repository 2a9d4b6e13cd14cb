import RtosKernel.RtThread.MemheapInvariant

/-! # The calls on a memheap

One lemma for each branch of the calls: it leaves the memheap described by a
new list of blocks and a new free list, and the used blocks of the two lists of
blocks differ by those the call took or gave back. -/
namespace RtosKernel.RtThread.Memheap
open Lib.Word Lib.Window Lib.Ring Lib.Tiling RtThread.Def List

variable {c : Board} {h h' : RtMemheap} {pre post blocks : List Block} {fl : List Nat}
  {a n size newsize : Nat}

/-! ## Allocating -/

/-- A block that starts at `q` lies in the region, before what is next. -/
structure Within (c : Board) (h : RtMemheap) (q : Nat) (post : List Block) : Prop where
  start_le : h.startAddr ≤ q
  room : q + c.memheapSize ≤ start post (tailer c h)
  next_le : start post (tailer c h) ≤ tailer c h
  tailer_lt : tailer c h + c.memheapSize ≤ 2 ^ 32
  tailer_add : tailer c h + c.memheapSize = h.startAddr + h.poolSize
  available_le : h.startAddr + h.availableSize ≤ tailer c h

theorem Blocks.within {b : Block} (hb : Blocks c h (pre ++ b :: post)) (hf : Fixed c h)
    (hav : h.availableSize = freeSum c (pre ++ b :: post) (tailer c h)) : Within c h b.off post := by
  obtain ⟨_, hroom, hr⟩ := hb.room
  have htail := hf.tailer_add
  have hpool := hf.pool_le
  have hsum := freeSum_le (c := c) hb.spaced
  refine ⟨?_, hroom, hr.start_le, by omega, htail, ?_⟩
  · have := hb.spaced.start_le_off (b := b) (by simp)
    rwa [hb.first] at this
  · rwa [hb.first, ← hav] at hsum

theorem Inv.bounds {b : Block} (hi : Inv c h (pre ++ b :: post) fl) : Within c h b.off post :=
  hi.tiles.within hi.fixed hi.available

/-- The outcome of a branch: the region is kept, and new lists describe it. -/
def Becomes (c : Board) (h : RtMemheap) (blocks : List Block) (h' : RtMemheap) : Prop :=
  Same h h' ∧ ∃ fl, Inv c h' blocks fl

theorem Becomes.of_lists (hf : Fixed c h) (hs : Same h h') (hb : Blocks c h' blocks)
    (hr : FreeRing h' fl) (hp : fl.Perm (freeOffs blocks))
    (hav : h'.availableSize = freeSum c blocks (tailer c h)) (hm : Merged blocks)
    (hmax : h.poolSize - h'.availableSize ≤ h'.maxUsedSize) : Becomes c h blocks h' := by
  refine ⟨hs, fl, hf.same hs, hb, hr, hp, ?_, hm, ?_⟩
  · rw [hs.tailer_eq, hav]
  · rw [hs.poolSize]
    exact hmax

theorem allocBlock_cut {freeSize : Nat} (hi : Inv c h (pre ++ ⟨a, false⟩ :: post) fl)
    (hfree : freeSize = start post (tailer c h) - a - c.memheapSize)
    (hcut : size + c.memheapSize + memheapMinialloc ≤ freeSize) :
    Becomes c h (pre ++ ⟨a, true⟩ :: ⟨a + size + c.memheapSize, false⟩ :: post)
      (allocBlock c h a size freeSize) := by
  obtain ⟨hlo, hroom, hend, hlt, htail, havail⟩ := hi.bounds
  have hH := c.memheapSize_bounds.1
  have hsize := hi.fixed.size_le
  have hsum := hi.available
  obtain ⟨l, r, rfl, hperm⟩ := hi.split_free
  simp only [freeSum_append, start_cons, freeSum_free] at hsum hroom hlo
  have hneed : add32 (add32 size c.memheapSize) memheapMinialloc =
      size + c.memheapSize + memheapMinialloc := add32_add (by omega)
  have hnew : add32 (add32 a size) c.memheapSize = a + size + c.memheapSize := add32_add (by omega)
  have hleft : sub32 (sub32 h.availableSize size) c.memheapSize = h.availableSize - size - c.memheapSize := by
    rw [sub32_of_le (show size ≤ h.availableSize by omega) (by omega), sub32_of_le (by omega) (by omega)]
  set n := a + size + c.memheapSize with hn
  set left := h.availableSize - size - c.memheapSize with hleft'
  set h1 := insertBlock h a n with h1def
  set h2 := freeInsert (freeTake h1 a) n with h2def
  have hfree1 : SameFree h h1 := insertBlock_same
  have htake : SameBlocks h1 (freeTake h1 a) := freeTake_same
  have hsame2 : SameBlocks h1 h2 := htake.trans freeInsert_same
  have hsame : Same h h2 := hfree1.toSame.trans hsame2.toSame
  -- the block list
  have hblocks : Blocks c h1 (pre ++ ⟨a, false⟩ :: ⟨n, false⟩ :: post) :=
    hi.tiles.insert (show a + c.memheapSize ≤ n by omega) (by omega)
  have hused := (hblocks.keep hsame2).mark true
  -- the free list
  have hfresh := hi.fresh (show a < n by omega) (show n < _ by omega)
  have hring : FreeRing h2 (n :: (l ++ r)) := by
    refine (hi.ring.keep hfree1).take.insert fun hm => hfresh ?_
    rw [htake.freeList, hfree1.freeList] at hm
    simp only [mem_cons, mem_append] at hm ⊢
    tauto
  obtain ⟨max', hcharge, hmax⟩ := charge_spec h2 left (show left ≤ h.poolSize by omega) (by omega)
    hsame.poolSize
  have he : allocBlock c h a size freeSize =
      { charge h2 left with magic := Function.update h2.magic a magicUsed } := by
    have hav2 : h2.availableSize = h.availableSize := by simp [h2def, h1def]
    simp only [allocBlock, hneed, if_pos hcut, hnew, ← h1def, ← h2def, hav2, hleft]
    rfl
  rw [he, hcharge]
  refine Becomes.of_lists hi.fixed ⟨hsame.1, hsame.2, hsame.3, hsame.4, hsame.5⟩
    (hused.keep ⟨⟨rfl, rfl, rfl, rfl, rfl⟩, rfl, rfl, rfl, rfl⟩) hring ?_ ?_
    (hi.merged.before.use hi.merged.cut) hmax
  · rw [freeOffs_append, freeOffs_used, freeOffs_free]
    exact (hperm.cons n).trans perm_middle.symm
  · simp only [freeSum_append, start_cons, freeSum_free, freeSum_used]
    omega

theorem allocBlock_whole {freeSize : Nat} (hi : Inv c h (pre ++ ⟨a, false⟩ :: post) fl)
    (hfree : freeSize = start post (tailer c h) - a - c.memheapSize) (hle : size ≤ freeSize)
    (hcut : ¬ size + c.memheapSize + memheapMinialloc ≤ freeSize) :
    Becomes c h (pre ++ ⟨a, true⟩ :: post) (allocBlock c h a size freeSize) := by
  obtain ⟨hlo, hroom, hend, hlt, htail, havail⟩ := hi.bounds
  have hmin : memheapMinialloc = 12 := rfl
  have hsize := hi.fixed.size_le
  have hsum := hi.available
  obtain ⟨l, r, rfl, hperm⟩ := hi.split_free
  simp only [freeSum_append, start_cons, freeSum_free] at hsum hroom hlo
  have hneed : add32 (add32 size c.memheapSize) memheapMinialloc =
      size + c.memheapSize + memheapMinialloc := add32_add (by omega)
  have hleft : sub32 h.availableSize freeSize = h.availableSize - freeSize :=
    sub32_of_le (by omega) (by omega)
  set left := h.availableSize - freeSize with hleft'
  have hblocks := hi.tiles.mark true
  obtain ⟨max', hcharge, hmax⟩ := charge_spec h left (show left ≤ h.poolSize by omega) (by omega) rfl
  have he : allocBlock c h a size freeSize =
      { freeTake (charge h left) a with magic := Function.update h.magic a magicUsed } := by
    simp only [allocBlock, hneed, if_neg hcut, hleft]
    rfl
  rw [he, hcharge]
  have hring : FreeRing (freeTake h a) (l ++ r) := FreeRing.take hi.ring
  refine Becomes.of_lists hi.fixed ⟨rfl, rfl, rfl, rfl, rfl⟩
    (hblocks.keep ⟨⟨rfl, rfl, rfl, rfl, rfl⟩, rfl, rfl, rfl, rfl⟩) hring ?_ ?_
    (hi.merged.before.use hi.merged.behind) hmax
  · rw [freeOffs_append, freeOffs_used]
    exact hperm
  · simp only [freeSum_append, start_cons, freeSum_used, freeTake_availableSize]
    omega

/-- The address handed out for a block. -/
def userPtr (c : Board) (a : Nat) : Nat := a + c.memheapSize

/-- What an allocation may do: nothing, or take one block. -/
def Allocs (c : Board) (h : RtMemheap) (blocks : List Block) (r : RtMemheap × Nat) : Prop :=
  r = (h, 0) ∨ ∃ a blocks', r.2 = userPtr c a ∧ Becomes c h blocks' r.1 ∧
    (⟨a, true⟩ : Block) ∉ blocks ∧
    ∀ x, (⟨x, true⟩ : Block) ∈ blocks' ↔ x = a ∨ (⟨x, true⟩ : Block) ∈ blocks

/-- The used blocks keep their extents, but for the one at `a`. -/
def KeepsNext (h : RtMemheap) (blocks : List Block) (a : Nat) (h' : RtMemheap) : Prop :=
  ∀ x, (⟨x, true⟩ : Block) ∈ blocks → x ≠ a → h'.next x = h.next x

theorem Inv.each (hi : Inv c h blocks fl) : Each true (fun x n => h.next x = x + n) blocks (tailer c h) := by
  have hb : Blocks c h ([] ++ blocks) := hi.tiles
  exact hb.each

theorem Becomes.keepsNext {blocks' : List Block} (hb : Becomes c h blocks' h')
    (heach : Each true (fun x n => x ≠ a → h.next x = x + n) blocks' (tailer c h))
    (hmem : ∀ x, (⟨x, true⟩ : Block) ∈ blocks → x ≠ a → (⟨x, true⟩ : Block) ∈ blocks') : KeepsNext h blocks a h' := by
  obtain ⟨hsame, fl', hi'⟩ := hb
  intro x hx hne
  have hnew := hi'.each
  rw [hsame.tailer_eq] at hnew
  obtain ⟨n, hold, hnext⟩ := heach.both hnew (hmem x hx hne)
  exact hnext.trans (hold hne).symm

/-- What taking the block at `a` for `size` bytes does. -/
structure Takes (c : Board) (h : RtMemheap) (blocks : List Block) (size a : Nat) (h' : RtMemheap) :
    Prop where
  new : (⟨a, true⟩ : Block) ∉ blocks
  becomes : ∃ blocks', Becomes c h blocks' h' ∧
    ∀ x, (⟨x, true⟩ : Block) ∈ blocks' ↔ x = a ∨ (⟨x, true⟩ : Block) ∈ blocks
  room : a + c.memheapSize + size ≤ h'.next a
  keeps : KeepsNext h blocks a h'

theorem Inv.next_imp (hi : Inv c h blocks fl) : Each true (fun x n => x ≠ a → h.next x = x + n) blocks (tailer c h) :=
  hi.each.imp fun _ _ _ hn _ => hn

theorem allocBlock_takes {freeSize : Nat} (hi : Inv c h (pre ++ ⟨a, false⟩ :: post) fl)
    (hfree : freeSize = start post (tailer c h) - a - c.memheapSize) (hle : size ≤ freeSize) :
    Takes c h (pre ++ ⟨a, false⟩ :: post) size a (allocBlock c h a size freeSize) := by
  have hH := c.memheapSize_bounds.1
  obtain ⟨_, hroom, _⟩ := hi.bounds
  have hnew : (⟨a, true⟩ : Block) ∉ pre ++ ⟨a, false⟩ :: post := by
    intro hx
    have hoff : (⟨a, true⟩ : Block) ∈ pre ∨ (⟨a, true⟩ : Block) ∈ post := by simpa using hx
    exact hi.tiles.spaced.off_ne (by omega) hoff rfl
  have hold := hi.next_imp (a := a)
  have hpost := (each_append.mp hold).2.2
  simp only at hroom
  by_cases hcut : size + c.memheapSize + memheapMinialloc ≤ freeSize
  · have hb := allocBlock_cut hi hfree hcut
    have hmem : ∀ x, (⟨x, true⟩ : Block) ∈ pre ++ ⟨a, true⟩ :: ⟨a + size + c.memheapSize, false⟩ :: post ↔
        x = a ∨ (⟨x, true⟩ : Block) ∈ pre ++ ⟨a, false⟩ :: post := fun x => by
      simp
      tauto
    refine ⟨hnew, ⟨_, hb, hmem⟩, ?_, hb.keepsNext (hold.replace (fun _ hne => absurd rfl hne) ?_)
      fun x hx _ => (hmem x).mpr (.inr hx)⟩
    · obtain ⟨_, _, hi'⟩ := hb
      have hnext := hi'.tiles.next_eq
      simp only [start_cons] at hnext
      omega
    · exact ⟨fun hu => Bool.noConfusion hu, hpost⟩
  · have hb := allocBlock_whole hi hfree hle hcut
    have hmem : ∀ x, (⟨x, true⟩ : Block) ∈ pre ++ ⟨a, true⟩ :: post ↔
        x = a ∨ (⟨x, true⟩ : Block) ∈ pre ++ ⟨a, false⟩ :: post := fun x => by
      simp
      tauto
    refine ⟨hnew, ⟨_, hb, hmem⟩, ?_, hb.keepsNext (hold.replace (fun _ hne => absurd rfl hne) hpost)
      fun x hx _ => (hmem x).mpr (.inr hx)⟩
    obtain ⟨hsame, _, hi'⟩ := hb
    have hnext := hi'.tiles.next_eq
    rw [hsame.tailer_eq] at hnext
    simp only at hnext
    omega

/-- The fuel with which every loop of a memheap ends. -/
def enough (h : RtMemheap) : Nat := h.poolSize + 3

theorem Inv.length_lt (hi : Inv c h blocks fl) : fl.length + 2 < enough h := by
  have hH := c.memheapSize_bounds.1
  have htail := hi.fixed.tailer_add
  have hlen := hi.tiles.spaced.length_le (by omega)
  have hle : fl.length ≤ blocks.length := by
    rw [hi.perm.length_eq, freeOffs, length_map]
    exact length_filter_le _ _
  rw [hi.tiles.first] at hlen
  unfold enough
  omega

theorem Inv.memitemSize_free (hi : Inv c h blocks fl) (ha : a ∈ fl) :
    ∃ pre post, blocks = pre ++ ⟨a, false⟩ :: post ∧
      memitemSize c h a = start post (tailer c h) - a - c.memheapSize := by
  have hmem := mem_freeOffs.mp (hi.perm.mem_iff.mp ha)
  obtain ⟨pre, post, rfl⟩ := append_of_mem hmem
  exact ⟨pre, post, rfl, memitemSize_eq hi.fixed hi.tiles⟩

/-- The bytes asked for are available, and a free block has room for them. -/
def Fits (c : Board) (h : RtMemheap) (blocks : List Block) (size : Nat) : Prop :=
  size < h.availableSize ∧ ∃ a, (⟨a, false⟩ : Block) ∈ blocks ∧ size ≤ memitemSize c h a

theorem allocSize_pos : 0 < allocSize c size := by
  unfold allocSize memheapMinialloc
  simp only
  split <;> omega

/-- **`rt_memheap_alloc` returns**: it takes a block if there is one, and leaves the
memheap as it was otherwise. -/
theorem rtMemheapAlloc_takes (hi : Inv c h blocks fl) (size : Nat) :
    ∃ r, rtMemheapAlloc c (enough h) h size = some r ∧
      (r = (h, 0) ∧ ¬ Fits c h blocks (allocSize c size) ∨
        Fits c h blocks (allocSize c size) ∧
          ∃ a, r.2 = userPtr c a ∧ Takes c h blocks (allocSize c size) a r.1) := by
  simp only [rtMemheapAlloc]
  split
  case isFalse => exact ⟨_, rfl, .inl ⟨rfl, fun hfits => by have := hfits.1; omega⟩⟩
  rename_i havail
  have hlen := hi.length_lt
  obtain ⟨⟨header, freeSize⟩, hsearch, hfound⟩ :=
    freeSearch_spec (c := c) (l := []) hi.ring allocSize_pos (show fl.length + 1 < enough h by omega)
  rw [IsRing.next_head hi.ring, hsearch]
  simp only [bind, Option.bind_some]
  split
  case isFalse =>
    rename_i hsmall
    refine ⟨_, rfl, .inl ⟨rfl, ?_⟩⟩
    rintro ⟨_, a, ha, hroom⟩
    have hall := (hfound.resolve_right fun hf => hsmall hf.2.2).2
    have := hall a (hi.perm.mem_iff.mpr (mem_freeOffs.mpr ha))
    omega
  rename_i hfits
  obtain ⟨hmem, hsize, _⟩ := hfound.resolve_left fun hf => Nat.not_lt.mpr hfits hf.1
  obtain ⟨pre, post, rfl, hfree⟩ := hi.memitemSize_free hmem
  obtain ⟨_, hroom, hend, hlt, _⟩ := hi.bounds
  have hH := c.memheapSize_bounds.1
  have hptr : add32 header c.memheapSize = userPtr c header := add32_of_lt (by simp only at hroom; omega)
  rw [hptr]
  exact ⟨_, rfl, .inr ⟨⟨havail, header, by simp, hsize ▸ hfits⟩, header, rfl,
    allocBlock_takes hi (hsize.trans hfree) hfits⟩⟩

/-- **`rt_memheap_alloc` returns**, with the memheap as it was or one block taken. -/
theorem rtMemheapAlloc_spec (hi : Inv c h blocks fl) (size : Nat) :
    ∃ r, rtMemheapAlloc c (enough h) h size = some r ∧ Allocs c h blocks r := by
  obtain ⟨r, hr, ⟨hnull, _⟩ | ⟨_, a, hp, htakes⟩⟩ := rtMemheapAlloc_takes hi size
  · exact ⟨r, hr, .inl hnull⟩
  · obtain ⟨blocks', hb, hmem⟩ := htakes.becomes
    exact ⟨r, hr, .inr ⟨a, blocks', hp, hb, htakes.new, hmem⟩⟩

/-! ## Freeing -/

variable {q : Nat} {insert : Bool}

/-- The memheap while a block is freed: the block at `q` is marked free, and still
has to enter the free list where `insert` says so. -/
structure Half (c : Board) (h : RtMemheap) (pre : List Block) (q : Nat) (post : List Block)
    (insert : Bool) (fl : List Nat) : Prop where
  fixed : Fixed c h
  tiles : Blocks c h (pre ++ ⟨q, false⟩ :: post)
  ring : FreeRing h fl
  perm : fl.Perm (freeOffs pre ++ (if insert then [] else [q]) ++ freeOffs post)
  available : h.availableSize = freeSum c (pre ++ ⟨q, false⟩ :: post) (tailer c h)
  max : h.poolSize - h.availableSize ≤ h.maxUsedSize

theorem Half.bounds (hi : Half c h pre q post insert fl) : Within c h q post :=
  hi.tiles.within hi.fixed hi.available

theorem Inv.release (hi : Inv c h (pre ++ ⟨a, true⟩ :: post) fl) :
    Half c { h with
      magic := Function.update h.magic a magicFreed
      availableSize := add32 h.availableSize (memitemSize c h a) } pre a post true fl := by
  obtain ⟨hlo, hroom, hend, hlt, htail, havail⟩ := hi.bounds
  have hH := c.memheapSize_bounds.1
  have hsize : memitemSize c h a = start post (tailer c h) - a - c.memheapSize :=
    memitemSize_eq hi.fixed hi.tiles
  have hmark := hi.tiles.mark false
  have hsum := hi.available
  have hbound := freeSum_le (c := c) hmark.spaced
  rw [hmark.first] at hbound
  change h.startAddr + freeSum c (pre ++ ⟨a, false⟩ :: post) (tailer c h) ≤ tailer c h at hbound
  simp only [freeSum_append, start_cons, freeSum_free, freeSum_used] at hsum hbound
  have hadd : add32 h.availableSize (memitemSize c h a) =
      h.availableSize + (start post (tailer c h) - a - c.memheapSize) := by
    rw [hsize, add32_of_lt (by omega)]
  have hmax := hi.max
  refine ⟨hi.fixed.same ⟨rfl, rfl, rfl, rfl, rfl⟩, hmark.keep ⟨⟨rfl, rfl, rfl, rfl, rfl⟩, rfl, rfl, rfl, rfl⟩,
    hi.ring.keep ⟨⟨rfl, rfl, rfl, rfl, rfl⟩, rfl, rfl⟩, ?_, ?_, ?_⟩
  · have hperm := hi.perm
    rw [freeOffs_append, freeOffs_used] at hperm
    simpa using hperm
  · simp only [hadd, freeSum_append, start_cons, freeSum_free]
    change _ = _ + (start post (tailer c h) - a - c.memheapSize + freeSum c post (tailer c h))
    omega
  · simp only [hadd]
    omega

theorem Half.mergeLeft (hi : Half c h pre a post true fl) :
    ∃ pre' q insert, absorb pre a = pre' ++ [⟨q, false⟩] ∧
      (mergeLeft c h a).2 = (q, insert) ∧ Same h (mergeLeft c h a).1 ∧
      Half c (mergeLeft c h a).1 pre' q post insert fl := by
  have hprev : h.prev a = last (tailer c h) pre := hi.tiles.prev_eq
  rcases last_cases pre with rfl | ⟨r, p, rfl⟩ | ⟨r, p, rfl⟩
  · rw [last_nil] at hprev
    have hused : isUsed h (h.prev a) := hprev ▸ hi.tiles.isUsed_tailer
    have he : Memheap.mergeLeft c h a = (h, a, true) := if_pos hused
    rw [he]
    exact ⟨[], a, true, rfl, rfl, .refl h, hi⟩
  · rw [last_append_singleton] at hprev
    have hb := hi.tiles
    rw [append_assoc, singleton_append] at hb
    have hfree : ¬ isUsed h p := by
      rw [isUsed_iff (hb.magic ⟨p, false⟩ (by simp))]
      simp
    have hsize := hi.fixed.size_le
    obtain ⟨hlo, hroom, hend, hlt, htail, havail⟩ := hi.bounds
    obtain ⟨_, hproom, _⟩ := hb.room
    have hadd : add32 h.availableSize c.memheapSize = h.availableSize + c.memheapSize :=
      add32_of_lt (by omega)
    have he : Memheap.mergeLeft c h a =
        ({ mergeNext h p a with availableSize := h.availableSize + c.memheapSize }, p, false) := by
      simp only [Memheap.mergeLeft, hprev, if_neg hfree, hadd]
      rfl
    have hsum := hi.available
    have hmax := hi.max
    rw [he]
    refine ⟨r, p, false, absorb_free r p a, rfl, ⟨rfl, rfl, rfl, rfl, rfl⟩,
      hi.fixed.same ⟨rfl, rfl, rfl, rfl, rfl⟩,
      hb.merge.keep ⟨⟨rfl, rfl, rfl, rfl, rfl⟩, rfl, rfl, rfl, rfl⟩,
      hi.ring.keep ⟨⟨rfl, rfl, rfl, rfl, rfl⟩, rfl, rfl⟩, ?_, ?_, ?_⟩
    · simpa using hi.perm
    · simp only [append_assoc, singleton_append, freeSum_append, start_cons, freeSum_free] at hsum hproom ⊢
      change _ = _ + (start post (tailer c h) - p - c.memheapSize + freeSum c post (tailer c h))
      omega
    · change h.poolSize - (h.availableSize + c.memheapSize) ≤ h.maxUsedSize
      omega
  · rw [last_append_singleton] at hprev
    have hused : isUsed h (h.prev a) := by
      rw [hprev, isUsed_iff (hi.tiles.magic ⟨p, true⟩ (by simp))]
    have he : Memheap.mergeLeft c h a = (h, a, true) := if_pos hused
    rw [he]
    exact ⟨_, a, true, absorb_used r p a, rfl, .refl h, hi⟩

/-- What is behind a block: the tailer or a used block, or a free one. -/
theorem Blocks.next_cases (hb : Blocks c h (pre ++ ⟨n, false⟩ :: post)) :
    isUsed h (h.next n) ∧ dropFree post = post ∨
      ∃ p rest, post = ⟨p, false⟩ :: rest ∧ h.next n = p ∧ ¬ isUsed h p := by
  have hnext : h.next n = start post (tailer c h) := hb.next_eq
  rcases post with _ | ⟨⟨p, used⟩, rest⟩
  · rw [start_nil] at hnext
    exact .inl ⟨hnext ▸ hb.isUsed_tailer, rfl⟩
  rw [start_cons] at hnext
  have hmagic := hb.magic ⟨p, used⟩ (by simp)
  cases used with
  | true => exact .inl ⟨by rw [hnext, isUsed_iff hmagic], rfl⟩
  | false =>
    refine .inr ⟨p, rest, rfl, hnext, ?_⟩
    rw [isUsed_iff hmagic]
    simp

/-- A free block takes in the free block behind it. -/
theorem Blocks.swallow {l r : List Nat} (hb : Blocks c h (pre ++ ⟨a, false⟩ :: ⟨n, false⟩ :: post))
    (hr : FreeRing h (l ++ n :: r)) (size : Nat) :
    Same h (freeRemove (mergeNext { h with availableSize := size } a n) n) ∧
      Blocks c (freeRemove (mergeNext { h with availableSize := size } a n) n) (pre ++ ⟨a, false⟩ :: post) ∧
      FreeRing (freeRemove (mergeNext { h with availableSize := size } a n) n) (l ++ r) := by
  set h1 := { h with availableSize := size } with h1def
  have hsame0 : Same h h1 := ⟨rfl, rfl, rfl, rfl, rfl⟩
  have hring1 : FreeRing h1 (l ++ n :: r) := hr.keep ⟨hsame0, rfl, rfl⟩
  have htiles1 : Blocks c h1 (pre ++ ⟨a, false⟩ :: ⟨n, false⟩ :: post) := hb.keep ⟨hsame0, rfl, rfl, rfl, rfl⟩
  have hsame1 : SameFree h1 (mergeNext h1 a n) := mergeNext_same
  have hsame2 : SameBlocks (mergeNext h1 a n) (freeRemove (mergeNext h1 a n) n) := freeRemove_same
  exact ⟨hsame0.trans (hsame1.toSame.trans hsame2.toSame), htiles1.merge.keep hsame2, (hring1.keep hsame1).remove⟩

theorem Half.mergeRight (hi : Half c h pre q post insert fl) :
    Same h (mergeRight c h q) ∧ ∃ fl', fl'.length ≤ fl.length ∧
      Half c (mergeRight c h q) pre q (dropFree post) insert fl' := by
  rcases hi.tiles.next_cases with ⟨hused, hkeep⟩ | ⟨n, post, rfl, hnext, hfree⟩
  · have he : Memheap.mergeRight c h q = h := if_pos hused
    rw [he, hkeep]
    exact ⟨.refl h, fl, le_refl _, hi⟩
  have hsize := hi.fixed.size_le
  obtain ⟨hlo, hroom, hend, hlt, htail, havail⟩ := hi.bounds
  obtain ⟨_, _, hnroom, hr⟩ := hi.tiles.room
  have hadd : add32 h.availableSize c.memheapSize = h.availableSize + c.memheapSize :=
    add32_of_lt (by omega)
  have hsum := hi.available
  have hmax := hi.max
  have hold := hi.perm
  rw [freeOffs_free] at hold
  obtain ⟨l, r, rfl, hperm⟩ := split_perm hold
  obtain ⟨hsame, htiles, hring⟩ := hi.tiles.swallow hi.ring (h.availableSize + c.memheapSize)
  have he : Memheap.mergeRight c h q =
      freeRemove (mergeNext { h with availableSize := h.availableSize + c.memheapSize } q n) n := by
    simp only [Memheap.mergeRight, hnext, if_neg hfree, hadd]
  rw [he]
  refine ⟨hsame, l ++ r, by simp, hi.fixed.same hsame, htiles, hring, hperm, ?_, ?_⟩
  · rw [hsame.tailer_eq]
    simp only [dropFree_free, freeSum_append, start_cons, freeSum_free] at hsum hroom hnroom ⊢
    change h.availableSize + c.memheapSize = _ + (start post (tailer c h) - q - c.memheapSize + _)
    omega
  · change h.poolSize - (h.availableSize + c.memheapSize) ≤ h.maxUsedSize
    omega

/-- The block enters the free list, at its front or where `RT_MEMHEAP_BSET_MODE`
wants it. -/
theorem Half.insertHeader {fuel : Nat} (hi : Half c h pre q post true fl) (hfuel : fl.length < fuel) :
    ∃ h' fl', insertHeader c fuel h q = some h' ∧ Same h h' ∧ Half c h' pre q post false fl' := by
  obtain ⟨l, r, hfl, hplace⟩ : ∃ l r, fl = l ++ r ∧
      Memheap.insertHeader c fuel h q = some (freeInsertBefore h q (behind r h.freeList)) := by
    have hring : FreeRing h ([] ++ fl) := hi.ring
    unfold Memheap.insertHeader
    rw [IsRing.next_head hi.ring]
    split
    · obtain ⟨l, r, hfl, hpos⟩ := insertPosition_spec (c := c) (memitemSize c h q) hring hfuel
      exact ⟨l, r, hfl, by rw [hpos]; rfl⟩
    · exact ⟨[], fl, rfl, rfl⟩
  subst hfl
  have hnew : q ∉ h.freeList :: (l ++ r) := by
    have hH := c.memheapSize_bounds.1
    have hhead := hi.fixed.header
    obtain ⟨hlo, hroom, hend, _, htail, _⟩ := hi.bounds
    rw [mem_cons, not_or]
    refine ⟨by omega, fun hm => ?_⟩
    have hother : q ∈ freeOffs pre ∨ q ∈ freeOffs post := by simpa using hi.perm.mem_iff.mp hm
    rw [mem_freeOffs, mem_freeOffs] at hother
    exact hi.tiles.spaced.off_ne (by omega) hother rfl
  have hsame : SameBlocks h (freeInsertBefore h q (behind r h.freeList)) := freeInsertBefore_same
  refine ⟨_, l ++ q :: r, hplace,
    hsame.toSame, hi.fixed.same hsame.toSame, hi.tiles.keep hsame, hi.ring.insertBefore hnew, ?_, ?_,
    hi.max⟩
  · have hperm := hi.perm
    simp only [if_true, List.append_nil, Bool.false_eq_true, if_false, append_assoc, singleton_append] at hperm ⊢
    exact perm_middle.trans ((hperm.cons q).trans perm_middle.symm)
  · exact hi.available

/-- What giving back the block at `a` does. -/
def Frees (c : Board) (h : RtMemheap) (blocks : List Block) (a : Nat) (h' : RtMemheap) : Prop :=
  ∃ blocks', Becomes c h blocks' h' ∧
    ∀ x, (⟨x, true⟩ : Block) ∈ blocks' ↔ x ≠ a ∧ (⟨x, true⟩ : Block) ∈ blocks

theorem Half.becomes {h0 : RtMemheap} (hi : Half c h pre q post false fl) (hs : Same h0 h)
    (hm : Merged (pre ++ ⟨q, false⟩ :: post)) : Becomes c h0 (pre ++ ⟨q, false⟩ :: post) h := by
  refine ⟨hs, fl, hi.fixed, hi.tiles, hi.ring, ?_, hi.available, hm, hi.max⟩
  have hperm := hi.perm
  rw [freeOffs_append, freeOffs_free]
  simpa using hperm

theorem Blocks.magic_next {b : Block} (hb : Blocks c h (pre ++ b :: post)) :
    h.magic (h.next b.off) &&& memheapMask = memheapMagic := by
  have hmask : ∀ used, magicOf used &&& memheapMask = memheapMagic := by decide
  rw [hb.next_eq]
  cases post with
  | nil => rw [start_nil, hb.tailerUsed]; exact hmask true
  | cons b' post => rw [start_cons, hb.magic b' (by simp)]; exact hmask b'.used

theorem userPtr_block {b : Block} (hi : Inv c h (pre ++ b :: post) fl) :
    sub32 (userPtr c b.off) c.memheapSize = b.off := by
  obtain ⟨_, hroom, hend, hlt, _⟩ := hi.bounds
  have hH := c.memheapSize_bounds.1
  unfold userPtr
  rw [sub32_of_le (by omega) (by omega), Nat.add_sub_cancel]

theorem userPtr_ne_zero : userPtr c a ≠ 0 := by
  have := c.memheapSize_bounds.1
  unfold userPtr
  omega

/-- **`rt_memheap_free`** of a used block merges it with its free neighbours, and
leaves the other used blocks as they are. -/
theorem rtMemheapFree_spec {fuel : Nat} (hi : Inv c h blocks fl) (ha : (⟨a, true⟩ : Block) ∈ blocks)
    (hfuel : enough h ≤ fuel) :
    ∃ h', rtMemheapFree c fuel h (userPtr c a) = some h' ∧ Frees c h blocks a h' ∧
      KeepsNext h blocks a h' := by
  obtain ⟨pre, post, rfl⟩ := append_of_mem ha
  have hH := c.memheapSize_bounds.1
  have hlen := hi.length_lt
  have hmagic : h.magic a = magicUsed := hi.tiles.magic ⟨a, true⟩ (by simp)
  have hpool : h.poolPtr a = h.self := hi.tiles.pool ⟨a, true⟩ (by simp)
  have hnext := hi.tiles.magic_next
  have hblock := userPtr_block hi
  have hself : h.poolPtr a ≠ 0 := hpool ▸ hi.fixed.self_ne
  have hhalf := hi.release
  set h0 := { h with
    magic := Function.update h.magic a magicFreed
    availableSize := add32 h.availableSize (memitemSize c h a) } with h0def
  have hsame0 : Same h h0 := ⟨rfl, rfl, rfl, rfl, rfl⟩
  obtain ⟨pre', q, insert, habs, hleft, hsame1, hh1⟩ := hhalf.mergeLeft
  obtain ⟨hsame2, fl2, hle, hh2⟩ := hh1.mergeRight
  have hmerged : Merged (pre' ++ ⟨q, false⟩ :: dropFree post) := by
    have hplug := hi.merged.before.plug (o := a) hi.merged.behind
    rwa [habs, append_assoc, singleton_append] at hplug
  have hmem : ∀ x, (⟨x, true⟩ : Block) ∈ pre' ++ ⟨q, false⟩ :: dropFree post ↔
      x ≠ a ∧ (⟨x, true⟩ : Block) ∈ pre ++ ⟨a, true⟩ :: post := fun x => by
    rw [← singleton_append, ← append_assoc, ← habs, mem_plug]
    exact hi.tiles.spaced.mem_others (by omega)
  have heach : Each true (fun x n => x ≠ a → h.next x = x + n) (pre' ++ ⟨q, false⟩ :: dropFree post)
      (tailer c h) := by
    rw [← singleton_append, ← append_assoc, ← habs]
    exact hi.next_imp.plug
  have hkeeps : ∀ {h3 : RtMemheap}, Becomes c h (pre' ++ ⟨q, false⟩ :: dropFree post) h3 →
      KeepsNext h (pre ++ ⟨a, true⟩ :: post) a h3 := fun hb =>
    hb.keepsNext heach fun x hx hne => (hmem x).mpr ⟨hne, hx⟩
  simp only [rtMemheapFree, if_neg userPtr_ne_zero, hblock, rtAssert_of hmagic, rtAssert_of hnext,
    rtAssert_of hself, rtAssert_of hpool, bind, Option.bind_some, ← h0def, hleft]
  cases insert with
  | true =>
    have hfuel2 : fl2.length < fuel := by omega
    obtain ⟨h3, fl3, he, hsame3, hh3⟩ := hh2.insertHeader hfuel2
    have hs : Same h h3 := (hsame0.trans hsame1).trans (hsame2.trans hsame3)
    have hb := hh3.becomes hs hmerged
    exact ⟨h3, he, ⟨_, hb, hmem⟩, hkeeps hb⟩
  | false =>
    have hb := hh2.becomes ((hsame0.trans hsame1).trans hsame2) hmerged
    exact ⟨_, rfl, ⟨_, hb, hmem⟩, hkeeps hb⟩

/-! ## Resizing in place -/

/-- **Growing a block** moves the header of the free block behind it. -/
theorem growBlock_spec {oldsize : Nat} (hi : Inv c h (pre ++ ⟨a, true⟩ :: ⟨n, false⟩ :: post) fl)
    (hold : a + c.memheapSize + oldsize = n) (hgrow : oldsize < newsize)
    (hfits : a + 2 * c.memheapSize + newsize < start post (tailer c h)) :
    Becomes c h (pre ++ ⟨a, true⟩ :: ⟨userPtr c a + newsize, false⟩ :: post)
      (growBlock h a (userPtr c a) oldsize newsize) := by
  have hn : Inv c h (pre ++ [⟨a, true⟩] ++ ⟨n, false⟩ :: post) fl := by
    rw [append_assoc, singleton_append]
    exact hi
  obtain ⟨hlo, hroom, hend, hlt, htail, havail⟩ := hn.bounds
  have hsize := hi.fixed.size_le
  have hsum := hi.available
  obtain ⟨l, r, rfl, hperm⟩ := hn.split_free
  simp only [freeSum_append, start_cons, freeSum_free, freeSum_used] at hsum hroom hlo
  have hnext : h.next a = n := hi.tiles.next_eq
  have hptr : userPtr c a = a + c.memheapSize := rfl
  set n' := userPtr c a + newsize with hn'
  set left := h.availableSize - (newsize - oldsize) with hleft'
  have hleft : sub32 h.availableSize (sub32 newsize oldsize) = left := by
    rw [sub32_of_le (show oldsize ≤ newsize by omega) (by omega), sub32_of_le (by omega) (by omega)]
  have hnew : add32 (userPtr c a) newsize = n' := add32_of_lt (by omega)
  obtain ⟨max', hcharge, hmax⟩ := charge_spec h left (show left ≤ h.poolSize by omega) (by omega) rfl
  set h1 := { h with availableSize := left, maxUsedSize := max' } with h1def
  have hsame1 : Same h h1 := ⟨rfl, rfl, rfl, rfl, rfl⟩
  have htiles1 : Blocks c h1 (pre ++ ⟨a, true⟩ :: ⟨n, false⟩ :: post) :=
    hi.tiles.keep ⟨hsame1, rfl, rfl, rfl, rfl⟩
  have hring1 : FreeRing h1 (l ++ n :: r) := hi.ring.keep ⟨hsame1, rfl, rfl⟩
  -- the free block is unlinked from both lists
  set h2 := freeRemove (mergeNext h1 a n) n with h2def
  have hmerge : SameFree h1 (mergeNext h1 a n) := mergeNext_same
  have hremove : SameBlocks (mergeNext h1 a n) h2 := freeRemove_same
  have hsame2 : Same h h2 := (hsame1.trans hmerge.toSame).trans hremove.toSame
  have htiles2 : Blocks c h2 (pre ++ ⟨a, true⟩ :: post) := htiles1.merge.keep hremove
  have hring2 : FreeRing h2 (l ++ r) := (hring1.keep hmerge).remove
  -- and built again on the right place
  set h3 := insertBlock h2 a n' with h3def
  have hinsert : SameFree h2 h3 := insertBlock_same
  have hsame3 : SameBlocks h3 (freeInsert h3 n') := freeInsert_same
  have hsame : Same h (freeInsert h3 n') := (hsame2.trans hinsert.toSame).trans hsame3.toSame
  have htiles3 : Blocks c h3 (pre ++ ⟨a, true⟩ :: ⟨n', false⟩ :: post) := by
    refine htiles2.insert (by omega) ?_
    rw [hsame2.tailer_eq]
    omega
  have hring3 : FreeRing (freeInsert h3 n') (n' :: (l ++ r)) := by
    refine (hring2.keep hinsert).insert ?_
    have hfresh := hn.fresh (show n < n' by omega) (show n' < start post (tailer c h) by omega)
    rw [hinsert.freeList, hsame2.freeList]
    simp only [mem_cons, mem_append] at hfresh ⊢
    tauto
  have he : growBlock h a (userPtr c a) oldsize newsize = freeInsert h3 n' := by
    simp only [growBlock, hnext, hleft, hcharge, hnew]
    rw [removeNextPtr_eq (c := c) (l := pre.map Block.off) (r := post.map Block.off) ?_]
    have hring := htiles1.ring
    rwa [map_append, map_cons, map_cons] at hring
  rw [he]
  refine Becomes.of_lists hi.fixed hsame (htiles3.keep hsame3) hring3 ?_ ?_
    (hi.merged.before.use hn.merged.cut) hmax
  · rw [freeOffs_append, freeOffs_used, freeOffs_free]
    rw [freeOffs_append, freeOffs_used, freeOffs_nil, List.append_nil] at hperm
    exact (hperm.cons n').trans perm_middle.symm
  · simp only [freeSum_append, start_cons, freeSum_free, freeSum_used]
    change left = _
    omega

/-- The memheap while a block is cut: the free block at `n` is in the block list,
but neither in the free list nor counted. -/
structure Cut (c : Board) (h : RtMemheap) (pre : List Block) (n : Nat) (post : List Block)
    (fl : List Nat) : Prop where
  fixed : Fixed c h
  tiles : Blocks c h (pre ++ ⟨n, false⟩ :: post)
  ring : FreeRing h fl
  perm : fl.Perm (freeOffs pre ++ freeOffs post)
  available : h.availableSize = freeSum c pre n + freeSum c post (tailer c h)

theorem Cut.mergeSplit (hi : Cut c h pre n post fl) :
    Same h (mergeSplit c h n) ∧ (mergeSplit c h n).maxUsedSize = h.maxUsedSize ∧
      ∃ fl', Cut c (mergeSplit c h n) pre n (dropFree post) fl' := by
  rcases hi.tiles.next_cases with ⟨hused, hkeep⟩ | ⟨p, post, rfl, hnext, hfree⟩
  · have he : Memheap.mergeSplit c h n = h := if_pos hused
    rw [he, hkeep]
    exact ⟨.refl h, rfl, fl, hi⟩
  have hp : Blocks c h (pre ++ [⟨n, false⟩] ++ ⟨p, false⟩ :: post) := by
    rw [append_assoc, singleton_append]
    exact hi.tiles
  have hsize : memitemSize c h p = start post (tailer c h) - p - c.memheapSize :=
    memitemSize_eq hi.fixed hp
  have htail := hi.fixed.tailer_add
  have hpool := hi.fixed.pool_le
  have hH := c.memheapSize_bounds.1
  obtain ⟨_, hroom, hr⟩ := hp.room
  have hsum := hi.available
  have hbound := freeSum_le (c := c) hi.tiles.spaced
  simp only [freeSum_append, start_append, start_cons, freeSum_free] at hsum hbound
  set left := h.availableSize - memitemSize c h p with hleft'
  have hleft : sub32 h.availableSize (memitemSize c h p) = left :=
    sub32_of_le (by omega) (by omega)
  have hold := hi.perm
  rw [freeOffs_free] at hold
  obtain ⟨l, r, rfl, hperm⟩ := split_perm hold
  obtain ⟨hsame, htiles, hring⟩ := hi.tiles.swallow hi.ring left
  have he : Memheap.mergeSplit c h n = freeRemove (mergeNext { h with availableSize := left } n p) p := by
    simp only [Memheap.mergeSplit, hnext, if_neg hfree, hleft]
  rw [he]
  refine ⟨hsame, rfl, l ++ r, hi.fixed.same hsame, htiles, hring, hperm, ?_⟩
  rw [hsame.tailer_eq, dropFree_free]
  change left = _
  omega

theorem Cut.finish (hi : Cut c h pre n post fl)
    (he : h' = { freeInsert h n with
      availableSize := add32 (freeInsert h n).availableSize (memitemSize c (freeInsert h n) n) })
    (hm : Merged (pre ++ ⟨n, false⟩ :: post))
    (hmax : h.poolSize - freeSum c (pre ++ ⟨n, false⟩ :: post) (tailer c h) ≤ h.maxUsedSize) :
    Becomes c h (pre ++ ⟨n, false⟩ :: post) h' := by
  have hH := c.memheapSize_bounds.1
  have htail := hi.fixed.tailer_add
  have hpool := hi.fixed.pool_le
  have hhead := hi.fixed.header
  obtain ⟨_, hroom, hr⟩ := hi.tiles.room
  have hend := hr.start_le
  have hlow := hi.tiles.spaced.start_le_off (b := ⟨n, false⟩) (by simp)
  rw [hi.tiles.first] at hlow
  simp only at hroom hlow
  have hsame : SameBlocks h (freeInsert h n) := freeInsert_same
  have htiles := hi.tiles.keep hsame
  have hring : FreeRing (freeInsert h n) (n :: fl) := by
    refine hi.ring.insert ?_
    rw [mem_cons, not_or]
    refine ⟨by omega, fun hm => ?_⟩
    have hin := hi.perm.mem_iff.mp hm
    rw [mem_append, mem_freeOffs, mem_freeOffs] at hin
    exact hi.tiles.spaced.off_ne (by omega) hin rfl
  have hsum := hi.available
  have hbound := freeSum_le (c := c) hi.tiles.spaced
  rw [hi.tiles.first] at hbound
  have hadd : add32 (freeInsert h n).availableSize (memitemSize c (freeInsert h n) n) =
      freeSum c (pre ++ ⟨n, false⟩ :: post) (tailer c h) := by
    rw [memitemSize_eq (b := ⟨n, false⟩) (hi.fixed.same hsame.toSame) htiles, hsame.tailer_eq,
      freeInsert_availableSize]
    simp only [freeSum_append, start_cons, freeSum_free] at hbound ⊢
    rw [add32_of_lt (by omega)]
    omega
  rw [hadd] at he
  rw [he]
  refine Becomes.of_lists hi.fixed ⟨rfl, rfl, rfl, rfl, rfl⟩
    (htiles.keep ⟨⟨rfl, rfl, rfl, rfl, rfl⟩, rfl, rfl, rfl, rfl⟩)
    (hring.keep ⟨⟨rfl, rfl, rfl, rfl, rfl⟩, rfl, rfl⟩) ?_ rfl hm hmax
  rw [freeOffs_append, freeOffs_free]
  exact (hi.perm.cons n).trans perm_middle.symm

theorem freeSum_dropFree {e : Nat} (hn : n ≤ start post e) :
    freeSum c post e ≤ start (dropFree post) e - n - c.memheapSize + freeSum c (dropFree post) e := by
  rcases post with _ | ⟨⟨p, _ | _⟩, post⟩
  · simp
  · simp only [start_cons] at hn
    simp only [dropFree_free, freeSum_free]
    omega
  · simp [dropFree]

/-- **Shrinking a block** frees its rest, merged with the free block behind. -/
theorem shrinkBlock_spec (hi : Inv c h (pre ++ ⟨a, true⟩ :: post) fl)
    (hfits : a + newsize + 2 * c.memheapSize ≤ start post (tailer c h)) :
    Becomes c h (pre ++ ⟨a, true⟩ :: ⟨a + newsize + c.memheapSize, false⟩ :: dropFree post)
      (shrinkBlock c h a newsize) := by
  obtain ⟨hlo, hroom, hend, hlt, htail, havail⟩ := hi.bounds
  have hH := c.memheapSize_bounds.1
  have hsum := hi.available
  simp only [freeSum_append, start_cons, freeSum_used] at hsum
  have hnew : add32 (add32 a newsize) c.memheapSize = a + newsize + c.memheapSize := add32_add (by omega)
  set n := a + newsize + c.memheapSize with hn
  set h1 := insertBlock h a n with h1def
  have hfree1 : SameFree h h1 := insertBlock_same
  have htiles1 : Blocks c h1 (pre ++ ⟨a, true⟩ :: ⟨n, false⟩ :: post) :=
    hi.tiles.insert (show a + c.memheapSize ≤ n by omega) (by omega)
  have hcut : Cut c h1 (pre ++ [⟨a, true⟩]) n post fl := by
    refine ⟨hi.fixed.same hfree1.toSame, ?_, hi.ring.keep hfree1, ?_, ?_⟩
    · rw [append_assoc, singleton_append]
      exact htiles1
    · have hperm := hi.perm
      rw [freeOffs_append, freeOffs_used] at hperm
      simpa using hperm
    · rw [hfree1.tailer_eq, insertBlock_availableSize, hsum, freeSum_append, freeSum_used, start_cons,
        freeSum_nil, Nat.add_zero]
  obtain ⟨hsame2, hmax2, fl2, hcut2⟩ := hcut.mergeSplit
  set h2 := Memheap.mergeSplit c h1 n with h2def
  have hsame : Same h h2 := hfree1.toSame.trans hsame2
  have hmerged : Merged (pre ++ [⟨a, true⟩] ++ ⟨n, false⟩ :: dropFree post) := by
    have huse : Merged (pre ++ [⟨a, true⟩]) := hi.merged.before.use List.IsChain.nil
    have hplug := huse.plug (o := n) hi.merged.behind
    rwa [absorb_used, append_assoc, singleton_append] at hplug
  have hmax : h2.poolSize - freeSum c (pre ++ [⟨a, true⟩] ++ ⟨n, false⟩ :: dropFree post)
      (tailer c h2) ≤ h2.maxUsedSize := by
    have hmax := hi.max
    have hmax1 : h1.maxUsedSize = h.maxUsedSize := rfl
    have hgain := freeSum_dropFree (c := c) (show n ≤ start post (tailer c h) by omega)
    rw [hsame.poolSize, hsame.tailer_eq, hmax2, hmax1]
    simp only [append_assoc, singleton_append, freeSum_append, start_cons, freeSum_free, freeSum_used]
    omega
  have he : shrinkBlock c h a newsize = { freeInsert h2 n with
      availableSize := add32 (freeInsert h2 n).availableSize (memitemSize c (freeInsert h2 n) n) } := by
    simp only [shrinkBlock, hnew, ← h1def, ← h2def]
  obtain ⟨hsame3, hinv⟩ := hcut2.finish he hmerged hmax
  rw [append_assoc, singleton_append] at hinv
  exact ⟨hsame.trans hsame3, hinv⟩

end RtosKernel.RtThread.Memheap
