import RtosKernel.Lib.FreeBlocks
import RtosKernel.RtThread.SmallMemInvariant

/-! # The calls on the small memory heap

One lemma for each call: it returns, the heap is described by a new list of
blocks, and the used blocks of the two lists differ by those the call took or
gave back. -/
namespace RtosKernel.RtThread.SmallMem
open Lib.Word Lib.Tiling RtThread.Def List Function

variable {c : Board} {m m' : RtSmallMem} {pre post blocks : List Block} {o size : Nat}

/-! ## Splitting a block -/

theorem usedSum_le {h e : Nat} {l : List Block} (hs : Spaced h l e) : start l e + usedSum l e ≤ e :=
  sumBy_le (fun u n => by cases u <;> simp) hs

theorem Fixed.add_size (hf : Fixed c m) {a b : Nat} (h : a + b ≤ m.heapEnd) : add32 a b = a + b := by
  have := hf.inside
  exact add32_of_lt (by omega)

theorem splitBlock_laid {used : Bool} (hf : Fixed c m) (hm : Middle c m pre ⟨o, used⟩ post)
    (hend : (m.item m.heapEnd).poolPtr = m.self + 1)
    (hroom : o + c.sizeofStructMem + size + c.sizeofStructMem < start post m.heapEnd) :
    ∃ item', splitBlock c m o size = { m with item := item' } ∧
      Laid item' m.self 0
        (pre ++ ⟨o, used⟩ :: ⟨o + c.sizeofStructMem + size, false⟩ :: post) m.heapEnd ∧
      (item' m.heapEnd).poolPtr = m.self + 1 := by
  have hS := Nat.succ_pos c.sizeofStructMem
  have hS12 := c.sizeofStructMem_bounds.1
  have hle := hm.spacedBehind.start_le
  have hadd : add32 (add32 o c.sizeofStructMem) size = o + c.sizeofStructMem + size := by
    rw [hf.add_size (show o + c.sizeofStructMem ≤ m.heapEnd by omega), hf.add_size (by omega)]
  have hsize : add32 m.memSizeAligned c.sizeofStructMem = m.heapEnd := by
    rw [hf.add_size (le_of_eq hf.heapEnd_eq.symm), hf.heapEnd_eq]
  have hnext : (m.item o).next = start post m.heapEnd := by rw [hm.header]
  set o2 := o + c.sizeofStructMem + size with ho2
  set s := start post m.heapEnd with hs
  -- the headers before the last write
  set item1 := setNext (Function.update m.item o2 ⟨memFreed m, s, o⟩) o o2 with h1
  have hlow : Laid item1 m.self 0 pre o :=
    (hm.before.update_before hm.spacedBefore hS (show o ≤ o2 by omega)).update_before
      hm.spacedBefore hS (le_refl o)
  have hhigh : Laid item1 m.self o post m.heapEnd :=
    (hm.behind.update_behind hm.spacedBehind (show o2 < _ by omega)).update_behind
      hm.spacedBehind (show o < _ by omega)
  have hself : item1 o = ⟨m.self + used.toNat, o2, last 0 pre⟩ := by
    simp only [h1, setNext, update_self, update_of_ne (show o ≠ o2 by omega)]
    rw [hm.header]
  have hrest : item1 o2 = ⟨m.self, s, o⟩ := by
    rw [h1, setNext_of_ne (show o2 ≠ o by omega), update_self, memFreed_eq hf.even hf.self_lt]
  have hlast : item1 m.heapEnd = m.item m.heapEnd := by
    rw [h1, setNext_of_ne (show m.heapEnd ≠ o by omega), update_of_ne (show m.heapEnd ≠ o2 by omega)]
  refine ⟨if s ≠ m.heapEnd then setPrev item1 s o2 else item1, ?_, ?_, ?_⟩
  · simp only [splitBlock, hadd, hsize, hnext]
    rfl
  · -- the write behind is left out exactly where nothing is behind
    have hsame : ∀ x, x ≠ s → (if s ≠ m.heapEnd then setPrev item1 s o2 else item1) x = item1 x := by
      intro x hx
      split
      · exact setPrev_of_ne hx
      · rfl
    refine laid_append.mpr ⟨?_, ?_, ?_, ?_⟩
    · refine hlow.frame fun x hx => hsame _ ?_
      have := hm.spacedBefore.off_le hx
      simp only at this
      omega
    · rw [hsame _ (show o ≠ s by omega), hself]
      rfl
    · rw [hsame _ (show o2 ≠ s by omega), hrest]
      simp [hs]
    · cases post with
      | nil => trivial
      | cons b l =>
        have hne : s ≠ m.heapEnd := by
          have := hm.spacedBehind.1
          have := hm.spacedBehind.2.start_le
          simp only [hs, start_cons]
          omega
        rw [if_pos hne]
        exact hhigh.setPrev hm.spacedBehind hS
  · split
    · rw [setPrev_poolPtr, hlast, hend]
    · rw [hlast, hend]

/-! ## Allocating -/

theorem with_lfree {x : Nat} (h : m.lfree = x) : { m with lfree := x } = m := by
  subst h
  rfl

theorem advanceLfree_eq : ∀ {rest : List Block} {m : RtSmallMem} {p fuel : Nat}, m.self % 2 = 0 →
    Laid m.item m.self p rest m.heapEnd → Spaced (c.sizeofStructMem + 1) rest m.heapEnd →
    m.lfree = start rest m.heapEnd → rest.length < fuel →
    advanceLfree fuel m = some { m with lfree := firstFree rest m.heapEnd }
  | [], m, p, fuel + 1, _, _, _, hl, _ => by
    have hend : m.lfree = m.heapEnd := hl
    rw [firstFree_nil, with_lfree hend]
    simp [advanceLfree, hend]
  | ⟨o, used⟩ :: rest, m, p, fuel + 1, heven, hlaid, hs, hl, hfuel => by
    have hlo : m.lfree = o := hl
    have hend := hs.2.start_le
    have hroom := hs.1
    have hused : memIsused (m.item m.lfree) = used := by
      rw [hlo, hlaid.1]; exact memIsused_eq heven used _ _
    cases used with
    | false =>
      rw [firstFree_free, with_lfree hlo]
      simp [advanceLfree, hused]
    | true =>
      have hne : m.lfree ≠ m.heapEnd := by simp only at hroom; omega
      have hlt : rest.length < fuel := by rw [length_cons] at hfuel; omega
      have hnext : (m.item m.lfree).next = start rest m.heapEnd := by rw [hlo, hlaid.1]
      simp only [advanceLfree, hused, hne, ne_eq, not_false_eq_true, and_self, if_true]
      rw [firstFree_used]
      exact advanceLfree_eq (m := { m with lfree := (m.item m.lfree).next }) heven hlaid.2 hs.2
        hnext hlt

/-- What is left behind a block that has been carved out of a free one, before
`post`. -/
structure Carved (c : Board) (m : RtSmallMem) (pre : List Block) (o : Nat) (post rest : List Block)
    (size : Nat) (item' : Nat → RtSmallMemItem) : Prop where
  laid : Laid item' m.self 0 (pre ++ ⟨o, false⟩ :: rest) m.heapEnd
  endUsed : (item' m.heapEnd).poolPtr = m.self + 1
  spaced : Spaced (c.sizeofStructMem + 1) (pre ++ ⟨o, false⟩ :: rest) m.heapEnd
  room : o + c.sizeofStructMem + size ≤ start rest m.heapEnd
  aligned : ∀ b ∈ rest, c.alignSize ∣ b.off
  merged : Merged rest
  mem_used : ∀ {x : Nat}, (⟨x, true⟩ : Block) ∈ rest ↔ (⟨x, true⟩ : Block) ∈ post
  length_le : rest.length ≤ post.length + 1

theorem addUsed_eq {n : Nat} (h : m.used + n < 2 ^ 32) :
    ∃ max', addUsed m n = { m with used := m.used + n, max := max' } ∧ m.used + n ≤ max' := by
  refine ⟨_, by simp only [addUsed, add32_of_lt h]; rfl, ?_⟩
  split <;> omega

variable {rest : List Block}

theorem usedSum_take {e : Nat} :
    usedSum (pre ++ ⟨o, true⟩ :: rest) e =
      usedSum (pre ++ ⟨o, false⟩ :: rest) e + (start rest e - o) := by
  simp only [usedSum_append, start_cons, usedSum_used, usedSum_free]
  omega

theorem carveBlock_spec (hi : Inv c m (pre ++ ⟨o, false⟩ :: post))
    (hroom : o + c.sizeofStructMem + size ≤ start post m.heapEnd) (hsize : c.alignSize ∣ size)
    (hpos : 0 < size) :
    ∃ rest item' max', carveBlock c m o size =
        { m with item := item', max := max', used := usedSum (pre ++ ⟨o, true⟩ :: rest) m.heapEnd } ∧
      usedSum (pre ++ ⟨o, true⟩ :: rest) m.heapEnd ≤ max' ∧
      Carved c m pre o post rest size item' ∧ (rest = post ∨ ∃ n, rest = ⟨n, false⟩ :: post) := by
  have hf := hi.fixed
  have ht := hi.tiles
  have hm := ht.middle
  have hin := hf.inside
  have hM := c.minSizeAligned_le
  have hMpos := c.minSizeAligned_pos
  have hend := hm.spacedBehind.start_le
  have hused := ht.used
  have hnext : (m.item o).next = start post m.heapEnd := by rw [hm.header]
  have hneed : add32 (add32 size c.sizeofStructMem) c.minSizeAligned =
      size + c.sizeofStructMem + c.minSizeAligned := add32_add (by omega)
  have hhave : sub32 (m.item o).next (add32 o c.sizeofStructMem) =
      start post m.heapEnd - (o + c.sizeofStructMem) := by
    rw [hnext, hf.add_size (show o + c.sizeofStructMem ≤ m.heapEnd by omega), sub32_of_le (by omega) (by omega)]
  unfold carveBlock
  split
  · have hroom2 : o + c.sizeofStructMem + size + c.sizeofStructMem < start post m.heapEnd := by omega
    obtain ⟨item', hsplit, hlaid, hlast⟩ := splitBlock_laid hf hm ht.endUsed hroom2
    set o2 := o + c.sizeofStructMem + size with ho2
    have hs : Spaced (c.sizeofStructMem + 1) (pre ++ ⟨o, false⟩ :: ⟨o2, false⟩ :: post) m.heapEnd := by
      refine spaced_append.mpr ⟨hm.spacedBefore, ?_, hroom2, hm.spacedBehind⟩
      simp only [start_cons]
      omega
    have hsum : m.used + (size + c.sizeofStructMem) =
        usedSum (pre ++ ⟨o, true⟩ :: ⟨o2, false⟩ :: post) m.heapEnd := by
      simp only [hused, usedSum_append, start_cons, usedSum_used, usedSum_free]
      omega
    have hbound := usedSum_le (hs.take true)
    obtain ⟨max', hadd, hmax⟩ := addUsed_eq (m := { m with item := item' })
      (show m.used + (size + c.sizeofStructMem) < 2 ^ 32 by omega)
    refine ⟨⟨o2, false⟩ :: post, item', max', ?_, hsum ▸ hmax,
      ⟨hlaid, hlast, hs, le_refl _, ?_, ?_, by simp, by simp⟩, .inr ⟨o2, rfl⟩⟩
    · rw [hsplit, add32_of_lt (show size + c.sizeofStructMem < 2 ^ 32 by omega), hadd, hsum]
    · intro b hb
      rcases mem_cons.mp hb with rfl | hb
      · exact Nat.dvd_add (Nat.dvd_add (ht.aligned ⟨o, false⟩ (by simp)) c.sizeofStructMem_dvd) hsize
      · exact ht.aligned b (by simp [hb])
    · exact hi.merged.cut
  · have hsum : m.used + (start post m.heapEnd - o) =
        usedSum (pre ++ ⟨o, true⟩ :: post) m.heapEnd := by rw [usedSum_take, ← hused]
    have hbound := usedSum_le (ht.spaced.take true)
    obtain ⟨max', hadd, hmax⟩ := addUsed_eq (m := m)
      (show m.used + (start post m.heapEnd - o) < 2 ^ 32 by omega)
    refine ⟨post, m.item, max', ?_, hsum ▸ hmax,
      ⟨ht.laid, ht.endUsed, ht.spaced, hroom, ?_, hi.merged.behind, Iff.rfl, Nat.le_succ _⟩, .inl rfl⟩
    · rw [hnext, sub32_of_le (by omega) (by omega), hadd, hsum]
    · exact fun b hb => ht.aligned b (by simp [hb])

theorem Laid.setPoolPtr {item : Nat → RtSmallMemItem} {pool p v e : Nat} {used : Bool}
    (used' : Bool) (hl : Laid item pool p (pre ++ ⟨o, used⟩ :: rest) e)
    (hs : Spaced (c.sizeofStructMem + 1) (pre ++ ⟨o, used⟩ :: rest) e) (hv : v = pool + used'.toNat) :
    Laid (setPoolPtr item o v) pool p (pre ++ ⟨o, used'⟩ :: rest) e := by
  have hS := Nat.succ_pos c.sizeofStructMem
  obtain ⟨hlow, hself, hhigh⟩ := laid_append.mp hl
  obtain ⟨hslow, hroom, hshigh⟩ := spaced_append.mp hs
  refine laid_append.mpr ⟨hlow.update_before hslow hS (le_refl o), ?_, ?_⟩
  · simp only [SmallMem.setPoolPtr, update_self, hself, hv]
  · refine hhigh.update_behind hshigh ?_
    simp only at hroom
    omega

/-- The address handed out for the block at `o`. -/
def userPtr (c : Board) (m : RtSmallMem) (o : Nat) : Nat := m.heapPtr + o + c.sizeofStructMem

/-- `lfree` after the block at `o` has been taken: the search goes on behind it
only if it was the lowest. -/
theorem firstFree_take {h e : Nat} (hh : 0 < h) (hs : Spaced h pre o) :
    firstFree (pre ++ ⟨o, true⟩ :: rest) e =
      if o = firstFree pre o then firstFree rest e else firstFree pre o := by
  rw [firstFree_append, firstFree_used]
  rcases firstFree_cases hh hs with hall | ⟨x, hx, hall⟩
  · rw [hall, hall, if_pos rfl]
  · rw [hall, hall, if_neg (by omega)]

theorem updateLfree_eq {p fuel : Nat} (heven : m.self % 2 = 0)
    (hl : Laid m.item m.self p (pre ++ ⟨o, true⟩ :: rest) m.heapEnd)
    (hs : Spaced (c.sizeofStructMem + 1) (pre ++ ⟨o, true⟩ :: rest) m.heapEnd)
    (hlfree : m.lfree = firstFree pre o) (hfuel : rest.length + 1 < fuel) :
    updateLfree fuel m o =
      some { m with lfree := firstFree (pre ++ ⟨o, true⟩ :: rest) m.heapEnd } := by
  obtain ⟨hslow, hshigh⟩ := spaced_append.mp hs
  rw [start_cons] at hslow
  rw [firstFree_take (Nat.succ_pos _) hslow, ← hlfree]
  unfold updateLfree
  split
  · rename_i ho
    have hadv := advanceLfree_eq (m := m) heven (laid_append.mp hl).2 hshigh ho.symm hfuel
    -- the assertion: the search ended at the end or at a free block
    have hfree : firstFree rest m.heapEnd = m.heapEnd ∨
        ¬ memIsused (m.item (firstFree rest m.heapEnd)) = true := by
      rcases firstFree_mem m.heapEnd rest with he | he
      · exact .inl he
      · obtain ⟨next, prev, hit⟩ := (laid_append.mp hl).2.2.mem he
        refine .inr ?_
        rw [hit, memIsused_eq heven false]
        decide
    rw [firstFree_used] at hadv
    simp only [hadv, bind, Option.bind_some, rtAssert_of hfree]
    rfl
  · rw [with_lfree rfl]

/-- **Taking a free block that fits.** -/
theorem allocBlock_spec {fuel : Nat} (hi : Inv c m (pre ++ ⟨o, false⟩ :: post))
    (hroom : o + c.sizeofStructMem + size ≤ start post m.heapEnd) (hsize : c.alignSize ∣ size)
    (hpos : 0 < size) (hfuel : post.length + 2 < fuel) :
    ∃ rest item' max' used' lfree', allocBlock c fuel m o size =
        some ({ m with item := item', max := max', used := used', lfree := lfree' },
          userPtr c m o) ∧
      Inv c { m with item := item', max := max', used := used', lfree := lfree' }
        (pre ++ ⟨o, true⟩ :: rest) ∧
      o + c.sizeofStructMem + size ≤ start rest m.heapEnd ∧
      (rest = post ∨ ∃ n, rest = ⟨n, false⟩ :: post) := by
  have hf := hi.fixed
  have ht := hi.tiles
  have hin := hf.inside
  obtain ⟨rest, item', max', hcarve, hmax, hc, hrest⟩ := carveBlock_spec hi hroom hsize hpos
  have hsrest := (spaced_append.mp hc.spaced).2.2
  have hend := hsrest.start_le
  have hcroom := hc.room
  set used' := usedSum (pre ++ ⟨o, true⟩ :: rest) m.heapEnd with hused
  set item2 := setPoolPtr item' o (m.self + 1) with hitem2
  have hlaid : Laid item2 m.self 0 (pre ++ ⟨o, true⟩ :: rest) m.heapEnd :=
    Laid.setPoolPtr true hc.laid hc.spaced rfl
  have hlast : (item2 m.heapEnd).poolPtr = m.self + 1 := by
    rw [hitem2, setPoolPtr_of_ne (show m.heapEnd ≠ o by omega), hc.endUsed]
  set lfree' := firstFree (pre ++ ⟨o, true⟩ :: rest) m.heapEnd with hlfree
  have hsearch : updateLfree fuel { m with item := item2, max := max', used := used' } o =
      some { m with item := item2, max := max', used := used', lfree := lfree' } := by
    refine updateLfree_eq (m := { m with item := item2, max := max', used := used' }) hf.even hlaid
      (hc.spaced.take true) ?_ ?_
    · have hl := ht.lfree
      rwa [firstFree_append, firstFree_free] at hl
    · have := hc.length_le
      omega
  have hinv : Inv c { m with item := item2, max := max', used := used', lfree := lfree' }
      (pre ++ ⟨o, true⟩ :: rest) := by
    refine ⟨hf.keep rfl rfl rfl rfl, ⟨hlaid, ?_, hc.spaced.take true, ?_, rfl, rfl, hlast⟩,
      hi.merged.before.use hc.merged, hmax⟩
    · have := ht.first
      rwa [start_append] at this ⊢
    · intro b hb
      rcases mem_append.mp hb with hb | hb
      · exact ht.aligned b (by simp [hb])
      · rcases mem_cons.mp hb with rfl | hb
        · exact ht.aligned ⟨o, false⟩ (by simp)
        · exact hc.aligned b hb
  refine ⟨rest, item2, max', used', lfree', ?_, hinv, hcroom, hrest⟩
  have hdvd : c.alignSize ∣ m.heapPtr + o := Nat.dvd_add hf.heapPtr_dvd (ht.aligned ⟨o, false⟩ (by simp))
  have hpool : memUsed (carveBlock c m o size) = m.self + 1 := by
    rw [hcarve]; exact memUsed_eq hf.even hf.self_lt
  have ha1 : add32 m.heapPtr o = m.heapPtr + o := add32_of_lt (by omega)
  have ha2 : add32 (m.heapPtr + o) c.sizeofStructMem = userPtr c m o := add32_of_lt (by omega)
  have ha3 : add32 (userPtr c m o) size = userPtr c m o + size :=
    add32_of_lt (by unfold userPtr; omega)
  have ha4 : add32 m.heapPtr m.heapEnd = m.heapPtr + m.heapEnd := add32_of_lt (by omega)
  have hfit : userPtr c m o + size ≤ m.heapPtr + m.heapEnd := by unfold userPtr; omega
  have hmod : userPtr c m o % c.alignSize = 0 :=
    Nat.mod_eq_zero_of_dvd (Nat.dvd_add hdvd c.sizeofStructMem_dvd)
  simp only [allocBlock, hpool]
  simp only [hcarve, ← hitem2, hsearch, bind, Option.bind_some, ha1, ha2, ha3, ha4, rtAssert_of hfit, rtAssert_of hmod,
    rtAssert_of (Align.and_of_dvd hdvd)]
  rfl

/-- The region of the heap is the same. -/
structure Same (m m' : RtSmallMem) : Prop where
  self : m'.self = m.self
  heapPtr : m'.heapPtr = m.heapPtr

theorem Same.trans {m1 m2 m3 : RtSmallMem} (h : Same m1 m2) (h' : Same m2 m3) : Same m1 m3 :=
  ⟨h'.1.trans h.1, h'.2.trans h.2⟩

/-- What an allocation may do: nothing, or take one block. -/
def Allocs (c : Board) (m : RtSmallMem) (blocks : List Block) (r : RtSmallMem × Nat) : Prop :=
  r = (m, 0) ∨ ∃ o blocks', r.2 = userPtr c m o ∧ Same m r.1 ∧ Inv c r.1 blocks' ∧
    (⟨o, true⟩ : Block) ∉ blocks ∧
    ∀ x, (⟨x, true⟩ : Block) ∈ blocks' ↔ x = o ∨ (⟨x, true⟩ : Block) ∈ blocks

/-- The bytes behind the header of the block at `o`: "the 'user data size' of mem". -/
def userSize (c : Board) (m : RtSmallMem) (o : Nat) : Nat := (m.item o).next - (o + c.sizeofStructMem)

/-- The block at `o` is free and has room for `need` bytes. -/
def Fits (c : Board) (m : RtSmallMem) (blocks : List Block) (need o : Nat) : Prop :=
  ⟨o, false⟩ ∈ blocks ∧ need ≤ userSize c m o

/-- What the search for `need` bytes ends with. -/
inductive FirstFit (c : Board) (m : RtSmallMem) (blocks : List Block) (need : Nat) :
    RtSmallMem × Nat → Prop
  | none (hnone : ∀ o, ¬ Fits c m blocks need o) : FirstFit c m blocks need (m, 0)
  /-- the first that has it is taken, and what is cut off behind it stays free -/
  | found {pre post rest : List Block} {o : Nat} {m' : RtSmallMem}
      (hblocks : blocks = pre ++ ⟨o, false⟩ :: post) (hfits : Fits c m blocks need o)
      (hbefore : ∀ b ∈ pre, ¬ Fits c m blocks need b.off)
      (hrest : rest = post ∨ ∃ n, rest = ⟨n, false⟩ :: post)
      (hroom : o + c.sizeofStructMem + need ≤ start rest m.heapEnd) (hsame : Same m m')
      (hend : m'.heapEnd = m.heapEnd) (hinv : Inv c m' (pre ++ ⟨o, true⟩ :: rest)) :
      FirstFit c m blocks need (m', userPtr c m o)

theorem Middle.userSize {b : Block} (hm : Middle c m pre b post) :
    SmallMem.userSize c m b.off = start post m.heapEnd - (b.off + c.sizeofStructMem) := by
  rw [SmallMem.userSize, hm.header]

theorem FirstFit.cases {need : Nat} {r : RtSmallMem × Nat} (hi : Inv c m blocks)
    (h : FirstFit c m blocks need r) : r = (m, 0) ∨ ∃ o blocks', r.2 = userPtr c m o ∧ Same m r.1 ∧
      Inv c r.1 blocks' ∧ (⟨o, true⟩ : Block) ∉ blocks ∧
      (∀ x, (⟨x, true⟩ : Block) ∈ blocks' ↔ x = o ∨ (⟨x, true⟩ : Block) ∈ blocks) ∧
      need ≤ userSize c r.1 o := by
  cases h with
  | none => exact .inl rfl
  | @found pre post rest o m' hblocks _ _ hrest hroom hsame hend hinv =>
    subst hblocks
    have hmem : ∀ x, (⟨x, true⟩ : Block) ∈ rest ↔ (⟨x, true⟩ : Block) ∈ post := by
      intro x
      rcases hrest with rfl | ⟨n, rfl⟩
      · exact Iff.rfl
      · simp
    refine .inr ⟨o, _, rfl, hsame, hinv, fun hx => ?_, fun x => ?_, ?_⟩
    · have hoff : (⟨o, true⟩ : Block) ∈ pre ∨ (⟨o, true⟩ : Block) ∈ post := by simpa using hx
      exact hi.tiles.spaced.off_ne (Nat.succ_pos _) hoff rfl
    · simp only [mem_append, mem_cons, hmem, Block.mk.injEq, and_true]
      tauto
    · rw [hinv.tiles.middle.userSize, hend]
      simp only
      omega

theorem FirstFit.allocs {need : Nat} {r : RtSmallMem × Nat} (hi : Inv c m blocks)
    (h : FirstFit c m blocks need r) : Allocs c m blocks r := by
  rcases h.cases hi with hr | ⟨o, blocks', hp, hsame, hinv, hnew, hmem, _⟩
  · exact .inl hr
  · exact .inr ⟨o, blocks', hp, hsame, hinv, hnew, hmem⟩

theorem Inv.userSize_le (hi : Inv c m blocks) {b : Block} (hb : b ∈ blocks) :
    b.off + userSize c m b.off ≤ m.memSizeAligned := by
  obtain ⟨pre, post, rfl⟩ := append_of_mem hb
  have hm := hi.tiles.middle
  have hroom := hm.room
  have hend := hm.spacedBehind.start_le
  have heq := hi.fixed.heapEnd_eq
  rw [hm.userSize]
  omega

/-- **The search is a first fit**: it goes past no block that fits, and the bound
on `ptr` leaves none out. -/
theorem allocLoop_firstFit (hsize : c.alignSize ∣ size) (hpos : 0 < size) (hle : size ≤ m.memSizeAligned) :
    ∀ {rest pre : List Block} {fuel : Nat}, Inv c m (pre ++ rest) → rest.length + 2 < fuel →
    (∀ b ∈ pre, ¬ Fits c m (pre ++ rest) size b.off) →
    ∃ r, allocLoop c m size fuel (start rest m.heapEnd) = some r ∧ FirstFit c m (pre ++ rest) size r
  | [], pre, fuel + 1, hi, _, hpre => by
    have hf := hi.fixed
    have heq := hf.heapEnd_eq
    have hin := hf.inside
    have hsub : sub32 m.memSizeAligned size = m.memSizeAligned - size := sub32_of_le hle (by omega)
    have hout : ¬ m.heapEnd ≤ m.memSizeAligned - size := by omega
    refine ⟨(m, 0), by simp only [allocLoop, start_nil, hsub, if_neg hout], .none fun o ho => ?_⟩
    exact hpre ⟨o, false⟩ (by simpa using ho.1) ho
  | ⟨o, used⟩ :: rest, pre, fuel + 1, hi, hfuel, hpre => by
    have hf := hi.fixed
    have hin := hf.inside
    have heq := hf.heapEnd_eq
    have hm := hi.tiles.middle
    have hroom : o + (c.sizeofStructMem + 1) ≤ start rest m.heapEnd := hm.room
    have hend := hm.spacedBehind.start_le
    have hnext : (m.item o).next = start rest m.heapEnd := by rw [hm.header]
    have hused : memIsused (m.item o) = used := by rw [hm.header]; exact memIsused_eq hf.even used _ _
    have huser : userSize c m o = start rest m.heapEnd - (o + c.sizeofStructMem) := hm.userSize
    have hhave : sub32 (start rest m.heapEnd) (add32 o c.sizeofStructMem) =
        start rest m.heapEnd - (o + c.sizeofStructMem) := by
      rw [hf.add_size (show o + c.sizeofStructMem ≤ m.heapEnd by omega), sub32_of_le (by omega) (by omega)]
    have hsub : sub32 m.memSizeAligned size = m.memSizeAligned - size := sub32_of_le hle (by omega)
    rw [length_cons] at hfuel
    simp only [allocLoop, start_cons, hused, hnext, hhave, hsub]
    split
    · split
      · -- a free block that fits
        rename_i hfits
        obtain ⟨hfree, hfit⟩ := hfits
        obtain rfl : used = false := by simpa using hfree
        have hfuel' : rest.length + 2 < fuel + 1 := by omega
        obtain ⟨rest', item', max', used', lfree', he, hinv, hroom', hrest⟩ :=
          allocBlock_spec hi (by omega) hsize hpos hfuel'
        have hmine : Fits c m (pre ++ ⟨o, false⟩ :: rest) size o := ⟨by simp, huser ▸ hfit⟩
        exact ⟨_, he, .found rfl hmine hpre hrest hroom' ⟨rfl, rfl⟩ rfl hinv⟩
      · -- go on to the next block
        rename_i hno
        have happ : pre ++ ⟨o, used⟩ :: rest = pre ++ [⟨o, used⟩] ++ rest := by
          rw [append_assoc, singleton_append]
        have hskip : ¬ Fits c m (pre ++ ⟨o, used⟩ :: rest) size o := by
          intro hfits
          have hmem : ⟨o, false⟩ ∈ pre ++ ⟨o, used⟩ :: rest := hfits.1
          cases used with
          | false => exact hno ⟨by simp, huser ▸ hfits.2⟩
          | true =>
            have hoff : (⟨o, false⟩ : Block) ∈ pre ∨ (⟨o, false⟩ : Block) ∈ rest := by simpa using hmem
            exact hi.tiles.spaced.off_ne (Nat.succ_pos _) hoff rfl
        rw [happ] at hi hpre hskip ⊢
        refine allocLoop_firstFit hsize hpos hle hi (show rest.length + 2 < fuel by omega) ?_
        intro b hb
        rcases mem_append.mp hb with hb | hb
        · exact hpre b hb
        · rw [mem_singleton.mp hb]
          exact hskip
    · -- the bound: a block behind it is too close to the end
      refine ⟨(m, 0), rfl, .none fun x hx => ?_⟩
      have hlast := hi.userSize_le hx.1
      have hneed := hx.2
      simp only at hlast
      rcases mem_append.mp hx.1 with hb | hb
      · exact hpre _ hb hx
      · have hlow : o ≤ x := (spaced_append.mp hi.tiles.spaced).2.start_le_off hb
        omega

/-- The fuel with which every loop of the heap ends. -/
def enough (m : RtSmallMem) : Nat := m.heapEnd + 3

theorem Fixed.rtAlign_le (hf : Fixed c m) (hle : size ≤ m.memSizeAligned) :
    size ≤ rtAlign size c.alignSize ∧ rtAlign size c.alignSize ≤ m.memSizeAligned := by
  have hin := hf.inside
  have heq := hf.heapEnd_eq
  have halign := Nat.le_of_dvd (show 0 < c.sizeofStructMem by have := c.sizeofStructMem_bounds.1; omega)
    c.sizeofStructMem_dvd
  refine ⟨?_, c.rtAlign_le hf.size_dvd (by omega) hle⟩
  exact (rtAlign_bounds (c.le_word.trans (by decide)) (show size + (c.alignSize - 1) < 2 ^ 32 by omega)).1

/-- The bytes that `rt_smem_alloc` looks for. -/
def need (c : Board) (size : Nat) : Nat := max (rtAlign size c.alignSize) c.minSizeAligned

/-- **`rt_smem_alloc` of a size that passes its check** is a first fit. -/
theorem rtSmemAlloc_firstFit {fuel : Nat} (hi : Inv c m blocks) (hsize : size ≠ 0)
    (hle : rtAlign size c.alignSize ≤ m.memSizeAligned) (hfuel : enough m ≤ fuel) :
    ∃ r, rtSmemAlloc c fuel m size = some r ∧ FirstFit c m blocks (need c size) r := by
  have hlen := hi.tiles.spaced.length_le (Nat.succ_pos _)
  have hmin := hi.fixed.minSize_le
  -- the search starts at the lowest free block
  obtain ⟨pre, rest, rfl, hstart, hpre⟩ : ∃ pre rest, blocks = pre ++ rest ∧
      m.lfree = start rest m.heapEnd ∧ ∀ b ∈ pre, b.used = true := by
    rw [hi.tiles.lfree]
    exact firstFree_split m.heapEnd blocks
  have hbefore : ∀ b ∈ pre, ¬ Fits c m (pre ++ rest) (need c size) b.off := by
    intro b hb hfits
    obtain ⟨l, r, rfl⟩ := append_of_mem hb
    have hspaced := hi.tiles.spaced
    rw [append_assoc] at hspaced
    have hmem : (⟨b.off, false⟩ : Block) ∈ l ∨ (⟨b.off, false⟩ : Block) ∈ r ++ rest := by
      have hne : (⟨b.off, false⟩ : Block) ≠ b := fun he => by
        have := hpre b hb
        rw [← he] at this
        cases this
      have := hfits.1
      simp only [append_assoc, mem_append, cons_append, mem_cons, hne, false_or] at this ⊢
      exact this
    exact hspaced.off_ne (Nat.succ_pos _) hmem rfl
  rw [length_append] at hlen
  have hfuel' : rest.length + 2 < fuel := by unfold enough at hfuel; omega
  have hM := c.minSizeAligned_pos
  have hdvd : c.alignSize ∣ need c size := by
    unfold need
    rcases max_choice (rtAlign size c.alignSize) c.minSizeAligned with h | h <;> rw [h]
    · exact c.rtAlign_dvd size
    · exact c.minSizeAligned_dvd
  have hloop := allocLoop_firstFit (c := c) hdvd (lt_max_of_lt_right hM) (max_le hle hmin) hi hfuel' hbefore
  have hclamp : (if rtAlign size c.alignSize < c.minSizeAligned then c.minSizeAligned
      else rtAlign size c.alignSize) = need c size := by
    unfold need
    rw [max_def]
    split <;> split <;> omega
  simp only [rtSmemAlloc, if_neg hsize, if_neg (Nat.not_lt.mpr hle), hclamp, hstart]
  exact hloop

/-- **`rt_smem_alloc` returns**, with the heap as it was or one block taken. -/
theorem rtSmemAlloc_spec (hi : Inv c m blocks) (size : Nat) :
    ∃ r, rtSmemAlloc c (enough m) m size = some r ∧ Allocs c m blocks r := by
  by_cases hsize : size = 0
  · exact ⟨(m, 0), by simp only [rtSmemAlloc, if_pos hsize], .inl rfl⟩
  by_cases hle : rtAlign size c.alignSize ≤ m.memSizeAligned
  · obtain ⟨r, hr, hfit⟩ := rtSmemAlloc_firstFit hi hsize hle (le_refl _)
    exact ⟨r, hr, hfit.allocs hi⟩
  · exact ⟨(m, 0), by simp only [rtSmemAlloc, if_neg hsize, if_pos (Nat.lt_of_not_le hle)], .inl rfl⟩

/-! ## Freeing -/

/-- What giving back the block at `o` does. -/
def Frees (c : Board) (m : RtSmallMem) (blocks : List Block) (o : Nat) (m' : RtSmallMem) : Prop :=
  ∃ blocks', Same m m' ∧ Inv c m' blocks' ∧
    ∀ x, (⟨x, true⟩ : Block) ∈ blocks' ↔ x ≠ o ∧ (⟨x, true⟩ : Block) ∈ blocks

theorem rtAssert_not {p : Prop} [Decidable p] (h : ¬ p) : rtAssert p = none := if_neg h

theorem userPtr_block (hf : Fixed c m) (ho : o + c.sizeofStructMem ≤ m.heapEnd) :
    sub32 (sub32 (userPtr c m o) c.sizeofStructMem) m.heapPtr = o := by
  have hin := hf.inside
  have hheader : sub32 (userPtr c m o) c.sizeofStructMem = m.heapPtr + o := by
    unfold userPtr
    rw [sub32_of_le (by omega) (by omega), Nat.add_sub_cancel]
  rw [hheader, sub32_of_le (by omega) (by omega), Nat.add_sub_cancel_left]

theorem userPtr_dvd (hi : Inv c m blocks) {used : Bool} (ho : (⟨o, used⟩ : Block) ∈ blocks) :
    c.alignSize ∣ userPtr c m o :=
  Nat.dvd_add (Nat.dvd_add hi.fixed.heapPtr_dvd (hi.tiles.aligned _ ho)) c.sizeofStructMem_dvd

theorem Laid.each {item : Nat → RtSmallMemItem} {pool h e : Nat} :
    ∀ {l : List Block} {p : Nat}, Laid item pool p l e → Spaced h l e →
      Each true (fun x n => (item x).next = x + n) l e
  | [], _, _, _ => trivial
  | b :: l, _, hl, hs => by
    refine ⟨fun _ => ?_, hl.2.each hs.2⟩
    have hroom := hs.1
    have hnext : (item b.off).next = start l e := by rw [hl.1]
    omega

theorem next_plug (ht : Tiles c m (pre ++ ⟨o, true⟩ :: post)) (hend : m'.heapEnd = m.heapEnd)
    (ht' : Tiles c m' (absorb pre o ++ dropFree post)) {x : Nat}
    (hx : (⟨x, true⟩ : Block) ∈ pre ++ ⟨o, true⟩ :: post) (hne : x ≠ o) : (m'.item x).next = (m.item x).next := by
  have hold := (ht.laid.each ht.spaced).plug
  have hnew := ht'.laid.each ht'.spaced
  rw [hend] at hnew
  have hmem : (⟨x, true⟩ : Block) ∈ absorb pre o ++ dropFree post := by
    rw [mem_plug]
    exact (ht.spaced.mem_others (Nat.succ_pos _)).mpr ⟨hne, hx⟩
  obtain ⟨l, r, hsplit⟩ := append_of_mem hmem
  rw [hsplit] at hold hnew
  exact hnew.at.trans hold.at.symm

theorem releaseBlock_tiles (hi : Inv c m (pre ++ ⟨o, true⟩ :: post)) :
    Tiles c (releaseBlock m o) (pre ++ ⟨o, false⟩ :: post) ∧ (releaseBlock m o).used < m.used := by
  have hf := hi.fixed
  have ht := hi.tiles
  have hin := hf.inside
  have hm := ht.middle
  have hroom : o + (c.sizeofStructMem + 1) ≤ start post m.heapEnd := hm.room
  have hend := hm.spacedBehind.start_le
  have hnext : (m.item o).next = start post m.heapEnd := by rw [hm.header]
  have hused := ht.used
  have hbound := usedSum_le ht.spaced
  rw [usedSum_take] at hused hbound
  have hsub : (releaseBlock m o).used = usedSum (pre ++ ⟨o, false⟩ :: post) m.heapEnd := by
    have hlen : sub32 (start post m.heapEnd) o = start post m.heapEnd - o :=
      sub32_of_le (by omega) (by omega)
    simp only [releaseBlock, hnext, hlen]
    rw [sub32_of_le (by omega) (by omega), hused, Nat.add_sub_cancel]
  refine ⟨⟨?_, ?_, ht.spaced.take false, ?_, ?_, hsub, ?_⟩, by rw [hsub, hused]; omega⟩
  · exact Laid.setPoolPtr false ht.laid ht.spaced (memFreed_eq hf.even hf.self_lt)
  · have := ht.first
    rwa [start_append] at this ⊢
  · intro b hb
    rcases mem_append.mp hb with hb | hb
    · exact ht.aligned b (by simp [hb])
    · rcases mem_cons.mp hb with rfl | hb
      · exact ht.aligned ⟨o, true⟩ (by simp)
      · exact ht.aligned b (by simp [hb])
  · have hlfree := ht.lfree
    have hle := start_le_firstFree hm.spacedBehind
    simp only [releaseBlock, firstFree_append, firstFree_free, firstFree_used] at hlfree ⊢
    rcases firstFree_cases (Nat.succ_pos _) hm.spacedBefore with hall | ⟨x, hx, hall⟩
    · rw [hall] at hlfree ⊢
      rw [if_pos (by omega)]
    · rw [hall] at hlfree ⊢
      simp only at hx
      rw [if_neg (by omega), hlfree]
  · change (setPoolPtr m.item o (memFreed m) m.heapEnd).poolPtr = m.self + 1
    rw [setPoolPtr_of_ne (show m.heapEnd ≠ o by omega), ht.endUsed]

theorem userPtr_range (hf : Fixed c m) (h : o + (c.sizeofStructMem + 1) ≤ m.heapEnd) :
    userPtr c m o ≠ 0 ∧ m.heapPtr ≤ userPtr c m o ∧ userPtr c m o < add32 m.heapPtr m.heapEnd := by
  have hin := hf.inside
  have hS := c.sizeofStructMem_bounds.1
  rw [add32_of_lt (show m.heapPtr + m.heapEnd < 2 ^ 32 by omega)]
  unfold userPtr
  omega

/-- **`rt_smem_free`** of a used block returns, unless the heap object itself is
taken for a null pointer. The other used blocks keep their extents. -/
theorem rtSmemFree_spec (hi : Inv c m blocks) (ho : (⟨o, true⟩ : Block) ∈ blocks) :
    (m.self = 0 ∧ rtSmemFree c m (userPtr c m o) = none) ∨
      ∃ m', rtSmemFree c m (userPtr c m o) = some m' ∧ Frees c m blocks o m' ∧ m'.used < m.used ∧
        ∀ x, (⟨x, true⟩ : Block) ∈ blocks → x ≠ o → (m'.item x).next = (m.item x).next := by
  obtain ⟨pre, post, rfl⟩ := append_of_mem ho
  have hf := hi.fixed
  have ht := hi.tiles
  have hin := hf.inside
  have hm := ht.middle
  have hS := c.sizeofStructMem_bounds.1
  have hroom : o + (c.sizeofStructMem + 1) ≤ start post m.heapEnd := hm.room
  have hend := hm.spacedBehind.start_le
  have hblock := userPtr_block hf (show o + c.sizeofStructMem ≤ m.heapEnd by omega)
  have hdvd := Align.and_of_dvd (userPtr_dvd hi ho)
  obtain ⟨hne, hrange⟩ := userPtr_range hf (hroom.trans hend)
  have hpool : memPool (m.item o) = m.self := by
    rw [hm.header]; exact memPool_eq hf.even hf.self_lt true _ _
  by_cases hnull : m.self = 0
  · refine .inl ⟨hnull, ?_⟩
    simp only [rtSmemFree, if_neg hne, hblock, rtAssert_of hdvd, hpool, bind, Option.bind_some]
    rw [rtAssert_not (by simpa using hnull)]
    rfl
  have hused : memIsused (m.item o) = true := by
    rw [hm.header]; exact memIsused_eq hf.even true _ _
  have hnext : (m.item o).next = start post m.heapEnd := by rw [hm.header]
  have hpool2 : memPool (m.item (start post m.heapEnd)) = m.self := by
    cases post with
    | nil =>
      have hlast := memPool_eq hf.even hf.self_lt true (m.item m.heapEnd).next (m.item m.heapEnd).prev
      rw [start_nil]
      unfold memPool at hlast ⊢
      rw [ht.endUsed]
      exact hlast
    | cons b l =>
      obtain ⟨next, prev, hit⟩ := hm.behind.mem (mem_cons_self ..)
      rw [start_cons, hit]
      exact memPool_eq hf.even hf.self_lt _ _ _
  obtain ⟨htr, hle⟩ := releaseBlock_tiles hi
  have hfr : Fixed c (releaseBlock m o) := hf.keep rfl rfl rfl rfl
  obtain ⟨item', hplug, htp⟩ := plugHoles_tiles hfr htr
  have hinv : Inv c { releaseBlock m o with item := item' } (absorb pre o ++ dropFree post) :=
    ⟨hf.keep rfl rfl rfl rfl, htp, hi.merged.before.plug hi.merged.behind, hle.le.trans hi.max⟩
  have hend : { releaseBlock m o with item := item' }.heapEnd = m.heapEnd := rfl
  refine .inr ⟨{ releaseBlock m o with item := item' }, ?_, ⟨_, ⟨rfl, rfl⟩, hinv, fun x => ?_⟩, hle,
    fun x hx hne => next_plug ht hend htp hx hne⟩
  · simp only [rtSmemFree, if_neg hne, hblock, rtAssert_of hdvd, hpool, rtAssert_of hnull,
      rtAssert_of hused, rtAssert_of hrange, hnext, rtAssert_of hpool2, bind,
      Option.bind_some]
    exact hplug
  · rw [mem_plug]
    exact ht.spaced.mem_others (Nat.succ_pos _)

end RtosKernel.RtThread.SmallMem
