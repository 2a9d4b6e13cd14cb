import RtosKernel.RtThread.MemheapCalls

/-! # Whole runs of a memheap -/
namespace RtosKernel.RtThread.Memheap
open Lib.Word Lib.Window Lib.Ring Lib.Tiling RtThread.Def Function Option

variable {c : Board} {h h' : RtMemheap} {pre post blocks : List Block} {fl : List Nat}
  {a n newsize : Nat}

/-! ## Resizing -/

/-- What resizing a live block may do. -/
inductive Resizes (c : Board) (h : RtMemheap) (blocks : List Block) (a newsize : Nat) :
    RtMemheap × Nat → Prop
  | failed (hsize : newsize ≠ 0) : Resizes c h blocks a newsize (h, 0)
  | freed {h' : RtMemheap} (hsize : newsize = 0) :
      Frees c h blocks a h' → Resizes c h blocks a newsize (h', 0)
  | inPlace {h' : RtMemheap} {blocks' : List Block} : Becomes c h blocks' h' →
      (∀ x, (⟨x, true⟩ : Block) ∈ blocks' ↔ (⟨x, true⟩ : Block) ∈ blocks) →
      Resizes c h blocks a newsize (h', userPtr c a)
  | moved {h1 h' : RtMemheap} {a' : Nat} {blocks1 : List Block} :
      (∀ x, (⟨x, true⟩ : Block) ∈ blocks1 ↔ x = a' ∨ (⟨x, true⟩ : Block) ∈ blocks) →
      (⟨a', true⟩ : Block) ∉ blocks → Same h h1 → Frees c h1 blocks1 a h' →
      Resizes c h blocks a newsize (h', userPtr c a')

theorem Inv.withData (hi : Inv c h blocks fl) (data : Nat → UInt8) : Inv c { h with data } blocks fl :=
  ⟨hi.fixed.same ⟨rfl, rfl, rfl, rfl, rfl⟩, hi.tiles.keep ⟨⟨rfl, rfl, rfl, rfl, rfl⟩, rfl, rfl, rfl, rfl⟩,
    hi.ring.keep ⟨⟨rfl, rfl, rfl, rfl, rfl⟩, rfl, rfl⟩, hi.perm, hi.available, hi.merged, hi.max⟩

/-- What a resize of the block at `a` to `size` bytes leaves: for `RT_NULL` the memheap as it was, for a pointer
a block with the room; no other used block is touched. -/
structure Resized (c : Board) (h : RtMemheap) (blocks : List Block) (a size : Nat) (r : RtMemheap × Nat) :
    Prop where
  null : r.2 = 0 → r.1 = h
  room : r.2 ≠ 0 → ∃ a', r.2 = userPtr c a' ∧ a' + c.memheapSize + size ≤ r.1.next a'
  keeps : KeepsNext h blocks a r.1

theorem Resized.failed : Resized c h blocks a n (h, 0) :=
  ⟨fun _ => rfl, fun h0 => absurd rfl h0, fun _ _ _ => rfl⟩

theorem Resized.inPlace (hroom : a + c.memheapSize + n ≤ h'.next a) (hk : KeepsNext h blocks a h') :
    Resized c h blocks a n (h', userPtr c a) :=
  ⟨fun h0 => absurd h0 userPtr_ne_zero, fun _ => ⟨a, rfl, hroom⟩, hk⟩

theorem rtAlign_le_allocSize : rtAlign n c.alignSize ≤ allocSize c n := by
  simp only [allocSize]
  split
  · rename_i hsmall
    exact Nat.le_of_lt hsmall
  · exact le_refl _

theorem le_allocSize : allocSize c n ≤ allocSize c (allocSize c n) := by
  have hk : c.alignBits ≤ 32 := c.le_word.trans (by decide)
  have hround : allocSize c n ≤ rtAlign (allocSize c n) c.alignSize := by
    by_cases hsmall : rtAlign n c.alignSize < memheapMinialloc
    · have hmin : allocSize c n = memheapMinialloc := if_pos hsmall
      rw [hmin]
      exact (c.rtAlign_small (show memheapMinialloc ≤ 32 by decide)).1
    · have hsame : allocSize c n = rtAlign n c.alignSize := if_neg hsmall
      have hlt : rtAlign n c.alignSize < 2 ^ 32 := rtAlign_lt hk
      have hdvd := c.rtAlign_dvd n
      have hgap : c.alignSize ≤ 2 ^ 32 - rtAlign n c.alignSize :=
        Nat.le_of_dvd (by omega) (Nat.dvd_sub (pow_dvd_pow 2 hk) hdvd)
      rw [hsame]
      exact (rtAlign_bounds hk (show rtAlign n c.alignSize + (c.alignSize - 1) < 2 ^ 32 by omega)).1
  exact hround.trans rtAlign_le_allocSize

theorem moveBlock_spec (oldsize : Nat) (hi : Inv c h blocks fl) (ha : (⟨a, true⟩ : Block) ∈ blocks)
    (hsize : newsize ≠ 0) :
    ∃ r, moveBlock c (enough h) h (userPtr c a) oldsize (allocSize c newsize) = some r ∧
      Resizes c h blocks a newsize r ∧ Resized c h blocks a (allocSize c newsize) r := by
  set size := allocSize c newsize with hsizedef
  obtain ⟨⟨h1, newPtr⟩, halloc, hr⟩ := rtMemheapAlloc_takes hi size
  simp only [moveBlock, halloc, bind, bind_some]
  rcases hr with ⟨hr, _⟩ | ⟨_, a', hp, htakes⟩
  · cases hr
    exact ⟨_, rfl, .failed hsize, .failed⟩
  obtain ⟨blocks1, ⟨hsame, fl1, hi1⟩, hmem⟩ := htakes.becomes
  have hnew := htakes.new
  simp only at hp hsame hi1
  have hnewPtr : newPtr ≠ 0 := hp ▸ userPtr_ne_zero
  simp only [if_pos hnewPtr]
  have ha1 : (⟨a, true⟩ : Block) ∈ blocks1 := (hmem a).mpr (.inr ha)
  set copied := (List.range (if oldsize < size then oldsize else size)).map fun i =>
    h1.data (userPtr c a + i) with hcopied
  have hfuel : enough { h1 with data := memcpy h1.data newPtr copied } ≤ enough h := by
    unfold enough
    exact le_of_eq (by rw [← hsame.poolSize])
  obtain ⟨h', hfree, hfrees, hkeeps⟩ := rtMemheapFree_spec (hi1.withData _) ha1 hfuel
  have hother : a' ≠ a := fun he => hnew (he ▸ ha)
  refine ⟨(h', newPtr), by rw [hfree]; rfl, ?_, fun h0 => absurd h0 hnewPtr, fun _ => ⟨a', hp, ?_⟩, ?_⟩
  · rw [hp]
    refine .moved hmem hnew ?_ hfrees
    exact ⟨hsame.1, hsame.2, hsame.3, hsame.4, hsame.5⟩
  · rw [hkeeps a' ((hmem a').mpr (.inl rfl)) hother]
    exact (Nat.add_le_add_left le_allocSize _).trans htakes.room
  · intro x hx hne
    rw [hkeeps x ((hmem x).mpr (.inr hx)) hne]
    exact htakes.keeps x hx fun he => hnew (he ▸ hx)

/-- **`rt_memheap_realloc`** of a live block. Where the block behind it is free, the
sum that is compared with the room there must not wrap. -/
theorem rtMemheapRealloc_spec (hi : Inv c h blocks fl) (ha : (⟨a, true⟩ : Block) ∈ blocks)
    (hfit : ¬ isUsed h (h.next a) → rtAlign newsize c.alignSize + memheapMinialloc < 2 ^ 32) :
    ∃ r, rtMemheapRealloc c (enough h) h (userPtr c a) newsize = some r ∧
      Resizes c h blocks a newsize r ∧ KeepsNext h blocks a r.1 ∧
      (newsize ≠ 0 → Resized c h blocks a (allocSize c newsize) r) := by
  unfold rtMemheapRealloc
  split
  · rename_i hzero
    obtain ⟨h', hfree, hfrees, hkeeps⟩ := rtMemheapFree_spec hi ha (le_refl _)
    exact ⟨_, by rw [hfree]; rfl, .freed hzero hfrees, hkeeps, fun h0 => absurd hzero h0⟩
  rename_i hsize
  obtain ⟨pre, post, hsplit⟩ := List.append_of_mem ha
  have hi' : Inv c h (pre ++ ⟨a, true⟩ :: post) fl := hsplit ▸ hi
  have hH := c.memheapSize_bounds.1
  have hmin : memheapMinialloc = 12 := rfl
  obtain ⟨hlo, hroom, hend, hlt, htail, _⟩ := hi'.bounds
  simp only at hlo hroom
  have hblock : sub32 (userPtr c a) c.memheapSize = a := userPtr_block hi'
  have hold : memitemSize c h a = start post (tailer c h) - a - c.memheapSize :=
    memitemSize_eq hi'.fixed hi'.tiles
  have hnext : h.next a = start post (tailer c h) := hi'.tiles.next_eq
  have hafter : a < h.next a := by omega
  simp only [if_neg userPtr_ne_zero, hblock, hold, rtAssert_of hafter, bind, bind_some]
  set size := allocSize c newsize with hsizedef
  set oldsize := start post (tailer c h) - a - c.memheapSize with holddef
  have heach := hi'.next_imp (a := a)
  have hpost := (each_append.mp heach).2.2
  have hother : ∀ {rest : List Block}, (∀ x, (⟨x, true⟩ : Block) ∈ post → (⟨x, true⟩ : Block) ∈ rest) →
      ∀ x, (⟨x, true⟩ : Block) ∈ blocks → x ≠ a → (⟨x, true⟩ : Block) ∈ pre ++ ⟨a, true⟩ :: rest := by
    intro rest hrest x hx hne
    have hcases : (⟨x, true⟩ : Block) ∈ pre ∨ (⟨x, true⟩ : Block) ∈ post := by simpa [hsplit, hne] using hx
    rcases hcases with hm | hm
    · simp [hm]
    · simp [hrest x hm]
  split
  · split
    · rename_i hgrow hcond
      obtain ⟨hunused, hfits⟩ := hcond
      have hwide : size + memheapMinialloc < 2 ^ 32 := by
        have := hfit hunused
        simp only [hsizedef, allocSize]
        split <;> omega
      -- the block behind is a free one, not the tailer
      obtain ⟨n, post', rfl⟩ : ∃ n post', post = ⟨n, false⟩ :: post' := by
        rcases post with _ | ⟨⟨n, used⟩, post'⟩
        · rw [hnext] at hunused
          exact absurd hi'.tiles.isUsed_tailer hunused
        · rw [hnext, start_cons, isUsed_iff (hi'.tiles.magic ⟨n, used⟩ (by simp))] at hunused
          exact ⟨n, post', by simpa using hunused⟩
      have hn : Inv c h (pre ++ [⟨a, true⟩] ++ ⟨n, false⟩ :: post') fl := by
        rw [List.append_assoc, List.singleton_append]
        exact hi'
      obtain ⟨_, hnroom, hnend, _⟩ := hn.bounds
      have hnsize : memitemSize c h n = start post' (tailer c h) - n - c.memheapSize :=
        memitemSize_eq hn.fixed hn.tiles
      simp only [start_cons] at hnext hroom holddef hnroom
      rw [hnext, hnsize, add32_of_lt hwide, add32_of_lt (by omega)] at hfits
      have hdone := growBlock_spec hi' (show a + c.memheapSize + oldsize = n by omega) hgrow (by omega)
      have hkeeps : KeepsNext h blocks a (growBlock h a (userPtr c a) oldsize size) :=
        hdone.keepsNext (heach.replace (fun _ hne => absurd rfl hne)
          ⟨fun hu => Bool.noConfusion hu, hpost.2⟩) (hother fun x hx => by simpa using hx)
      refine ⟨_, rfl, .inPlace hdone fun x => ?_, hkeeps, fun _ => .inPlace ?_ hkeeps⟩
      · rw [hsplit]
        simp
      · obtain ⟨_, _, hi2⟩ := hdone
        have hnext2 := hi2.tiles.next_eq
        exact le_of_eq hnext2.symm
    · obtain ⟨r, hr, hres, hroom⟩ := moveBlock_spec oldsize hi ha hsize
      exact ⟨r, hr, hres, hroom.keeps, fun _ => hroom⟩
  split
  · exact ⟨_, rfl, .inPlace ⟨.refl h, fl, hi⟩ fun _ => Iff.rfl, fun _ _ _ => rfl,
      fun _ => .inPlace (by omega) fun _ _ _ => rfl⟩
  · rename_i hshrink hcut
    rw [add32_add (by omega)] at hcut
    have hfits : a + size + 2 * c.memheapSize ≤ start post (tailer c h) := by omega
    have hdone := shrinkBlock_spec hi' hfits
    have hused : ∀ x, (⟨x, true⟩ : Block) ∈ dropFree post ↔ (⟨x, true⟩ : Block) ∈ post := by
      intro x
      rcases post with _ | ⟨⟨n, _ | _⟩, post'⟩ <;> simp [dropFree]
    have hkeeps : KeepsNext h blocks a (shrinkBlock c h a size) :=
      hdone.keepsNext (heach.replace (fun _ hne => absurd rfl hne)
        ⟨fun hu => Bool.noConfusion hu, hpost.dropFree⟩) (hother fun x hx => by simpa [hused] using hx)
    refine ⟨_, rfl, .inPlace hdone fun x => ?_, hkeeps, fun _ => .inPlace ?_ hkeeps⟩
    · rw [hsplit]
      simp [hused]
    · obtain ⟨_, _, hi2⟩ := hdone
      have hnext2 := hi2.tiles.next_eq
      simp only [start_cons] at hnext2
      omega

/-! ## Initialisation -/

/-- **`rt_memheap_init`** makes one free block and the tailer. -/
theorem rtMemheapInit_inv {l : Place} {mem : RtMemheap} (hinit : rtMemheapInit c l mem = some h)
    (hmin : 2 * c.memheapSize ≤ l.size) : Inv c h [⟨h.startAddr, false⟩] [h.startAddr] := by
  have hH := c.memheapSize_bounds.1
  have hk : c.alignBits ≤ 32 := c.le_word.trans (by decide)
  have hpool := l.pool_le
  have hobj := l.object_le
  have hsizeof := l.sizeof_le
  have hapart := l.apart
  have hhead := l.header_mem
  unfold rtMemheapInit at hinit
  rw [rtAssert] at hinit
  split at hinit
  case isFalse => cases hinit
  rename_i hself
  have hlt : l.size < 2 ^ 32 := by omega
  have hdown : rtAlignDown l.size c.alignSize = l.size - l.size % c.alignSize := rtAlignDown_eq hk hlt
  have hdvd : c.alignSize ∣ rtAlignDown l.size c.alignSize := by rw [hdown]; exact Nat.dvd_sub_mod _
  set pool := rtAlignDown l.size c.alignSize with hpooldef
  have hmin' : 2 * c.memheapSize ≤ pool := by
    have hmod := Nat.mod_lt l.size c.alignSize_pos
    have htwo : c.alignSize ∣ 2 * c.memheapSize := Dvd.dvd.mul_left (c.rtAlign_dvd _) 2
    by_contra hgt
    have := Nat.le_of_dvd (by omega) (Nat.dvd_sub htwo hdvd)
    omega
  have hle : pool ≤ l.size := hdown ▸ Nat.sub_le _ _
  have hbig : pool + 64 ≤ 2 ^ 32 := by omega
  have hheader : l.freeHeader < l.startAddr ∨ l.startAddr + pool ≤ l.freeHeader := by omega
  clear hdown hapart hobj hhead hsizeof
  have havail : sub32 pool (2 * c.memheapSize) = pool - 2 * c.memheapSize :=
    sub32_of_le (by omega) (by omega)
  set tail := l.startAddr + pool - c.memheapSize with htail
  have hadd : add32 (add32 l.startAddr (pool - 2 * c.memheapSize)) c.memheapSize = tail := by
    rw [add32_add (by omega)]
    omega
  have hused : sub32 pool (pool - 2 * c.memheapSize) = 2 * c.memheapSize := by
    rw [sub32_of_le (by omega) (by omega)]
    omega
  -- the three headers lie at different addresses
  have hts : tail ≠ l.startAddr := by omega
  have hft : l.freeHeader ≠ tail := by omega
  have hfs : l.freeHeader ≠ l.startAddr := by omega
  simp only [havail, hadd, hused, bind, bind_some, Option.pure_def, some.injEq] at hinit
  have hend : tailer c h = tail := by
    subst hinit
    rfl
  subst hinit
  refine ⟨⟨hself, ?_, ?_, hdvd, hmin', ?_, rfl⟩, ⟨⟨?_, ?_⟩, rfl, ⟨?_, trivial⟩, ?_, ?_, ?_⟩, ⟨?_, ?_⟩,
    .refl _, ?_, .singleton _, ?_⟩
  · change l.startAddr + pool ≤ 2 ^ 32
    omega
  · exact hbig
  · exact hheader
  · rw [hend]
    simp [update_of_ne hts.symm]
  · rw [hend]
    simpa using hts
  · change l.startAddr + c.memheapSize ≤ tail
    omega
  · intro b hb
    rw [List.mem_singleton.mp hb]
    simp only [update_of_ne hts.symm, update_self]
    rfl
  · intro b hb
    rw [List.mem_singleton.mp hb]
    simp only [update_of_ne hts.symm, update_self]
  · rw [hend]
    simp only [update_self]
  · simp [update_of_ne hts.symm, update_of_ne hft, update_of_ne hfs, update_of_ne hfs.symm]
  · simpa using hfs
  · simp only [freeSum_free, start_nil, freeSum_nil]
    omega
  · change pool - (pool - 2 * c.memheapSize) ≤ 2 * c.memheapSize
    omega

/-! ## Runs -/

inductive Op
  | alloc (size : Nat)
  | realloc (ptr newsize : Nat)
  | free (ptr : Nat)
  deriving DecidableEq, Repr

/-- A memheap and the pointers the callers hold. -/
structure State where
  h : RtMemheap
  live : Finset Nat

/-- The calls that may be made: only live pointers, or none, are given back, and
no block is resized beyond the size of the pool. -/
def Valid (s : State) : Op → Prop
  | .alloc _ => True
  | .realloc ptr newsize => (ptr = 0 ∨ ptr ∈ s.live) ∧ newsize ≤ s.h.poolSize
  | .free ptr => ptr = 0 ∨ ptr ∈ s.live

/-- One call. A resize to no size gives the block back; one that returns `RT_NULL`
for want of memory does not. -/
def step (c : Board) (s : State) : Op → Option State
  | .alloc size => do
    let (h, p) ← rtMemheapAlloc c (enough s.h) s.h size
    return ⟨h, if p = 0 then s.live else insert p s.live⟩
  | .realloc ptr newsize => do
    let (h, p) ← rtMemheapRealloc c (enough s.h) s.h ptr newsize
    return ⟨h, if p ≠ 0 then insert p (s.live.erase ptr)
      else if newsize = 0 then s.live.erase ptr else s.live⟩
  | .free ptr => do
    let h ← rtMemheapFree c (enough s.h) s.h ptr
    return ⟨h, s.live.erase ptr⟩

/-- The live pointers are those of the used blocks. -/
def Live (c : Board) (live : Finset Nat) (blocks : List Block) : Prop :=
  ∀ p, p ∈ live ↔ ∃ a, (⟨a, true⟩ : Block) ∈ blocks ∧ p = userPtr c a

/-- The memheap and the callers between two calls. -/
def Good (c : Board) (s : State) : Prop := ∃ blocks fl, Inv c s.h blocks fl ∧ Live c s.live blocks

variable {s s' : State} {live : Finset Nat}

theorem userPtr_inj {a' : Nat} (h : userPtr c a = userPtr c a') : a = a' := by
  unfold userPtr at h
  omega

theorem Live.insert {blocks' : List Block} (hl : Live c live blocks)
    (hmem : ∀ x, (⟨x, true⟩ : Block) ∈ blocks' ↔ x = a ∨ (⟨x, true⟩ : Block) ∈ blocks) :
    Live c (insert (userPtr c a) live) blocks' :=
  Lib.Tiling.Live.insert hl hmem

theorem Live.erase {blocks' : List Block} (hl : Live c live blocks)
    (hmem : ∀ x, (⟨x, true⟩ : Block) ∈ blocks' ↔ x ≠ a ∧ (⟨x, true⟩ : Block) ∈ blocks) :
    Live c (live.erase (userPtr c a)) blocks' :=
  Lib.Tiling.Live.erase (fun _ _ => userPtr_inj) hl hmem

theorem Live.erase_zero (hl : Live c live blocks) : live.erase 0 = live := by
  refine Finset.erase_eq_of_notMem fun h0 => ?_
  obtain ⟨a, _, he⟩ := (hl 0).mp h0
  exact userPtr_ne_zero he.symm

theorem Allocs.good {r : RtMemheap × Nat} (hi : Inv c h blocks fl) (hl : Live c live blocks)
    (ha : Allocs c h blocks r) : Good c ⟨r.1, if r.2 = 0 then live else insert r.2 live⟩ := by
  rcases ha with rfl | ⟨a, blocks', hp, ⟨_, fl', hi'⟩, _, hmem⟩
  · exact ⟨blocks, fl, hi, hl⟩
  · refine ⟨blocks', fl', hi', ?_⟩
    rw [hp, if_neg userPtr_ne_zero]
    exact hl.insert hmem

theorem Resizes.good {r : RtMemheap × Nat} (hi : Inv c h blocks fl) (hl : Live c live blocks)
    (ha : (⟨a, true⟩ : Block) ∈ blocks) (hr : Resizes c h blocks a newsize r) :
    Good c ⟨r.1, if r.2 ≠ 0 then insert r.2 (live.erase (userPtr c a))
      else if newsize = 0 then live.erase (userPtr c a) else live⟩ := by
  cases hr with
  | failed hsize => exact ⟨blocks, fl, hi, by simpa [hsize] using hl⟩
  | freed hsize hf =>
    obtain ⟨blocks', ⟨_, fl', hi'⟩, hmem⟩ := hf
    exact ⟨blocks', fl', hi', by simpa [hsize] using hl.erase hmem⟩
  | @inPlace _ blocks' hb hmem =>
    obtain ⟨_, fl', hi'⟩ := hb
    have hmine : userPtr c a ∈ live := (hl _).mpr ⟨a, ha, rfl⟩
    refine ⟨blocks', fl', hi', fun p => ?_⟩
    simp only [ne_eq, userPtr_ne_zero, not_false_eq_true, if_true, Finset.insert_erase hmine, hmem]
    exact hl p
  | @moved _ _ a' _ hmem hnew _ hf =>
    obtain ⟨blocks', ⟨_, fl', hi'⟩, hmem'⟩ := hf
    have hne : userPtr c a' ≠ userPtr c a := fun e => hnew (userPtr_inj e ▸ ha)
    have hl' := (hl.insert hmem).erase hmem'
    rw [Finset.erase_insert_of_ne hne] at hl'
    refine ⟨blocks', fl', hi', ?_⟩
    simp only [ne_eq, userPtr_ne_zero, not_false_eq_true, if_true]
    exact hl'

theorem rtMemheapFree_null {fuel : Nat} : rtMemheapFree c fuel h 0 = some h := if_pos rfl

theorem rtMemheapRealloc_null (hi : Inv c h blocks fl) (newsize : Nat) :
    ∃ r, rtMemheapRealloc c (enough h) h 0 newsize = some r ∧ Allocs c h blocks r := by
  unfold rtMemheapRealloc
  split
  · exact ⟨(h, 0), by rw [rtMemheapFree_null]; rfl, .inl rfl⟩
  · exact rtMemheapAlloc_spec hi _

/-- **One valid call** returns and keeps the memheap good. -/
theorem step_good {op : Op} (hg : Good c s) (hv : Valid s op) : ∃ s', step c s op = some s' ∧ Good c s' := by
  obtain ⟨blocks, fl, hi, hl⟩ := hg
  cases op with
  | alloc size =>
    obtain ⟨r, hr, ha⟩ := rtMemheapAlloc_spec hi size
    exact ⟨_, by simp only [step, hr, bind, bind_some]; rfl, ha.good hi hl⟩
  | realloc ptr newsize =>
    obtain ⟨hptr, hsize⟩ := hv
    rcases hptr with rfl | hptr
    · obtain ⟨r, hr, ha⟩ := rtMemheapRealloc_null hi newsize
      refine ⟨_, by simp only [step, hr, bind, bind_some]; rfl, ?_⟩
      have hgood := ha.good hi hl
      rw [hl.erase_zero, ite_self]
      by_cases hp : r.2 = 0
      · simpa [hp] using hgood
      · simpa [hp] using hgood
    · obtain ⟨a, ha, rfl⟩ := (hl ptr).mp hptr
      have hround : rtAlign newsize c.alignSize + memheapMinialloc < 2 ^ 32 := by
        have hpool := hi.fixed.size_le
        have hle := c.rtAlign_le hi.fixed.size_dvd (show s.h.poolSize < 2 ^ 32 by omega) hsize
        have hmini : memheapMinialloc = 12 := rfl
        omega
      obtain ⟨r, hr, hres, _⟩ := rtMemheapRealloc_spec hi ha fun _ => hround
      exact ⟨_, by simp only [step, hr, bind, bind_some]; rfl, hres.good hi hl ha⟩
  | free ptr =>
    rcases hv with rfl | hptr
    · refine ⟨s, ?_, blocks, fl, hi, hl⟩
      simp only [step, rtMemheapFree_null, bind, bind_some, hl.erase_zero]
      rfl
    · obtain ⟨a, ha, rfl⟩ := (hl ptr).mp hptr
      obtain ⟨h', hr, ⟨blocks', ⟨_, fl', hi'⟩, hmem⟩, _⟩ := rtMemheapFree_spec hi ha (le_refl _)
      exact ⟨⟨h', s.live.erase (userPtr c a)⟩, by simp only [step, hr, bind, bind_some]; rfl,
        blocks', fl', hi', hl.erase hmem⟩

/-- The states reached from a new memheap by valid calls. -/
inductive Reachable (c : Board) (start : RtMemheap) : State → Prop
  | init : Reachable c start ⟨start, ∅⟩
  | step {s s' : State} (h : Reachable c start s) (op : Op) (hv : Valid s op)
      (hs : step c s op = some s') : Reachable c start s'

theorem Reachable.good {start : RtMemheap} (hi : Inv c start [⟨start.startAddr, false⟩] [start.startAddr])
    (h : Reachable c start s) : Good c s := by
  induction h with
  | init => exact ⟨_, _, hi, by simp [Live]⟩
  | step _ op hv hs ih =>
    obtain ⟨s', he, hg⟩ := step_good ih hv
    rw [hs] at he
    cases he
    exact hg

/-- The blocks form a doubly linked ring in the order of their addresses, closed by the used tailer; the free
list is one of just the blocks whose magic says freed; no two neighbours are free; `available_size` counts the
bytes of the free blocks; and `max_used_size` is no smaller than what is used. -/
def Consistent (c : Board) (h : RtMemheap) : Prop :=
  ∃ addrs fl : List Nat, addrs.head? = some h.blockList ∧
    IsRing h.next h.prev (tailer c h) addrs ∧ (addrs ++ [tailer c h]).IsChain (· < ·) ∧
    h.magic (tailer c h) = magicUsed ∧
    (∀ a ∈ addrs, h.magic a = magicUsed ∨ h.magic a = magicFreed) ∧
    IsRing h.nextFree h.prevFree h.freeList fl ∧
    (∀ a, a ∈ fl ↔ a ∈ addrs ∧ h.magic a = magicFreed) ∧
    addrs.IsChain (fun a b => h.magic a = magicUsed ∨ h.magic b = magicUsed) ∧
    h.availableSize = (fl.map (memitemSize c h)).sum ∧
    h.availableSize ≤ h.poolSize ∧ h.poolSize - h.availableSize ≤ h.maxUsedSize

theorem magicOf_eq_freed {u : Bool} : magicOf u = magicFreed ↔ u = false := by
  cases u <;> decide

theorem Blocks.freeSum_eq (hf : Fixed c h) : ∀ {pre post : List Block}, Blocks c h (pre ++ post) →
    freeSum c post (tailer c h) = ((freeOffs post).map (memitemSize c h)).sum
  | pre, [], _ => rfl
  | pre, ⟨a, used⟩ :: post, hb => by
    have hb' : Blocks c h (pre ++ [⟨a, used⟩] ++ post) := by
      rw [List.append_assoc, List.singleton_append]
      exact hb
    have ih := Blocks.freeSum_eq hf hb'
    have hsize := memitemSize_eq hf hb
    cases used with
    | true => rw [freeSum_used, freeOffs_used, ih]
    | false =>
      rw [freeSum_free, freeOffs_free, List.map_cons, List.sum_cons, hsize, ih]

theorem Inv.consistent (hi : Inv c h blocks fl) : Consistent c h := by
  have hH := c.memheapSize_bounds.1
  have hb := hi.tiles
  have htail := hi.fixed.tailer_add
  have hmin := hi.fixed.min_le
  have hsum := freeSum_le (c := c) hb.spaced
  rw [hb.first, ← hi.available] at hsum
  refine ⟨blocks.map Block.off, fl, ?_, hb.ring, hb.spaced.increasing (by omega), hb.tailerUsed, ?_,
    hi.ring, fun a => ?_, ?_, ?_, by omega, hi.max⟩
  · have hfirst := hb.first
    rw [hi.fixed.blockList]
    cases blocks with
    | nil =>
      rw [start_nil] at hfirst
      omega
    | cons b post => rw [List.map_cons, List.head?_cons, ← hfirst, start_cons]
  · intro a ha
    obtain ⟨⟨x, used⟩, hx, rfl⟩ := List.mem_map.mp ha
    rw [hb.magic _ hx]
    cases used with
    | false => exact .inr rfl
    | true => exact .inl rfl
  · rw [hi.perm.mem_iff, mem_freeOffs]
    constructor
    · exact fun ha => ⟨List.mem_map_of_mem ha, hb.magic _ ha⟩
    · rintro ⟨ha, hm⟩
      obtain ⟨⟨x, used⟩, hx, rfl⟩ := List.mem_map.mp ha
      rw [hb.magic _ hx, magicOf_eq_freed] at hm
      obtain rfl : used = false := hm
      exact hx
  · rw [List.isChain_map]
    refine List.IsChain.imp_of_mem_imp (fun a b ha hb' hab => ?_) hi.merged
    rw [hb.magic a ha, hb.magic b hb']
    rcases hab with hu | hu
    · exact .inl (by rw [hu]; rfl)
    · exact .inr (by rw [hu]; rfl)
  · have hall : Blocks c h ([] ++ blocks) := hb
    rw [hi.available, Blocks.freeSum_eq hi.fixed hall]
    exact ((hi.perm.map _).sum_eq).symm

/-- **A memheap stays consistent.** In every state that valid calls reach from a pool with room for two headers
and the smallest block, with or without `RT_MEMHEAP_BSET_MODE`, the two lists and the counters are consistent,
and every further valid call returns. -/
theorem memheap_consistent {l : Place} {mem start : RtMemheap}
    (hinit : rtMemheapInit c l mem = some start)
    (hmin : 2 * c.memheapSize + memheapMinialloc ≤ l.size) (h : Reachable c start s) :
    Consistent c s.h ∧ ∀ op, Valid s op → ∃ s', step c s op = some s' := by
  have hg := h.good (rtMemheapInit_inv hinit ((Nat.le_add_right _ _).trans hmin))
  have ⟨_, _, hi, _⟩ := hg
  refine ⟨hi.consistent, fun op hv => ?_⟩
  obtain ⟨s', hs, _⟩ := step_good hg hv
  exact ⟨s', hs⟩

/-- A board with words as the alignment and a sorted free list. -/
def smallBoard : Board := ⟨align4, false, true⟩

/-- A memheap object at 4096 over a pool of 128 bytes at 8192. -/
def smallPlace : Place := ⟨4096, 104, 4140, 8192, 128, by decide, by decide, by decide, by decide, by decide⟩

/-- Memory that holds nothing in particular. -/
def blank : RtMemheap :=
  ⟨0, 0, 0, 0, 0, 0, 0, fun _ => 0, fun _ => 0, fun _ => 0, fun _ => 0, fun _ => 0, fun _ => 0, fun _ => 0⟩

/-- A block is taken from a pool of 128 bytes and given back. -/
theorem memheap_consistent_small : ∃ start s1 s2, rtMemheapInit smallBoard smallPlace blank = some start ∧
    step smallBoard ⟨start, ∅⟩ (.alloc 20) = some s1 ∧ step smallBoard s1 (.free 8216) = some s2 ∧
    Consistent smallBoard s2.h := by
  obtain ⟨start, hinit⟩ : ∃ h, rtMemheapInit smallBoard smallPlace blank = some h := ⟨_, rfl⟩
  have hmin : 2 * smallBoard.memheapSize + memheapMinialloc ≤ smallPlace.size := by decide
  obtain ⟨s1, h1, hl1⟩ : ∃ s1, step smallBoard ⟨start, ∅⟩ (.alloc 20) = some s1 ∧ 8216 ∈ s1.live := by
    cases hinit
    exact ⟨_, rfl, by decide⟩
  have hr1 : Reachable smallBoard start s1 := .step .init (.alloc 20) trivial h1
  have hv : Valid s1 (.free 8216) := .inr hl1
  obtain ⟨s2, h2⟩ := (memheap_consistent hinit hmin hr1).2 _ hv
  exact ⟨start, s1, s2, hinit, h1, h2, (memheap_consistent hinit hmin (hr1.step _ hv h2)).1⟩

/-- **No memory is lost.** Whenever the callers have given every block back, both lists hold one block, of
the whole pool but for the headers. -/
theorem memheap_recovers {l : Place} {mem start : RtMemheap} (hinit : rtMemheapInit c l mem = some start)
    (hmin : 2 * c.memheapSize + memheapMinialloc ≤ l.size) (h : Reachable c start s) (hempty : s.live = ∅) :
    IsRing s.h.next s.h.prev (tailer c s.h) [s.h.startAddr] ∧
    IsRing s.h.nextFree s.h.prevFree s.h.freeList [s.h.startAddr] ∧
    s.h.availableSize + 2 * c.memheapSize = s.h.poolSize := by
  obtain ⟨blocks, fl, hi, hl⟩ := h.good (rtMemheapInit_inv hinit ((Nat.le_add_right _ _).trans hmin))
  have hb := hi.tiles
  have htail := hi.fixed.tailer_add
  have hpool := hi.fixed.min_le
  have hlt : s.h.startAddr < tailer c s.h := by
    have := c.memheapSize_bounds.1
    omega
  obtain rfl := Live.whole hl hempty hi.merged hb.first hlt.ne
  have hfl : fl = [s.h.startAddr] := List.perm_singleton.mp hi.perm
  have havail := hi.available
  simp only [freeSum_free, freeSum_nil, start_nil] at havail
  exact ⟨hb.ring, hfl ▸ hi.ring, by omega⟩

/-- A block is taken, grown in its place and given back. -/
theorem memheap_recovers_small : ∃ start s1 s2 s3, rtMemheapInit smallBoard smallPlace blank = some start ∧
    step smallBoard ⟨start, ∅⟩ (.alloc 20) = some s1 ∧ step smallBoard s1 (.realloc 8216 40) = some s2 ∧
    step smallBoard s2 (.free 8216) = some s3 ∧ s2.h.availableSize = 16 ∧
    IsRing s3.h.next s3.h.prev (tailer smallBoard s3.h) [s3.h.startAddr] ∧
    IsRing s3.h.nextFree s3.h.prevFree s3.h.freeList [s3.h.startAddr] ∧
    s3.h.availableSize + 2 * smallBoard.memheapSize = s3.h.poolSize := by
  obtain ⟨start, hinit⟩ : ∃ h, rtMemheapInit smallBoard smallPlace blank = some h := ⟨_, rfl⟩
  obtain ⟨s1, h1, hv1⟩ : ∃ s1, step smallBoard ⟨start, ∅⟩ (.alloc 20) = some s1 ∧
      Valid s1 (.realloc 8216 40) := by
    cases hinit
    exact ⟨_, rfl, .inr (by decide), by decide⟩
  obtain ⟨s2, h2, hv2, havail⟩ : ∃ s2, step smallBoard s1 (.realloc 8216 40) = some s2 ∧ Valid s2 (.free 8216) ∧
      s2.h.availableSize = 16 := by
    cases hinit
    cases h1
    exact ⟨_, rfl, .inr (by decide), rfl⟩
  have hr2 : Reachable smallBoard start s2 := (Reachable.init.step (.alloc 20) trivial h1).step _ hv1 h2
  obtain ⟨s3, h3, hempty⟩ : ∃ s3, step smallBoard s2 (.free 8216) = some s3 ∧ s3.live = ∅ := by
    cases hinit
    cases h1
    cases h2
    exact ⟨_, rfl, by decide⟩
  exact ⟨start, s1, s2, s3, hinit, h1, h2, h3, havail,
    memheap_recovers hinit (by decide) (hr2.step _ hv2 h3) hempty⟩

end RtosKernel.RtThread.Memheap
