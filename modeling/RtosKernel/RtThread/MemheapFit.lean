import RtosKernel.RtThread.MemheapRuns

/-! # Whether a memheap hands out what was asked for

`RT_ALIGN` wraps for the sizes next to `2 ^ 32`, and the rounded size nothing is
then raised to the smallest one. `rt_memheap_realloc` moreover adds the smallest
size to the rounded one before it compares, and that sum can wrap as well. -/
namespace RtosKernel.RtThread.Memheap
open Lib.Word Lib.Tiling RtThread.Def

variable {c : Board} {h h' : RtMemheap} {pre post blocks : List Block} {fl : List Nat} {a n size : Nat}

/-! ## The promise -/

/-- A pointer that is handed out is that of a used block with room for `size` bytes. -/
def Served (c : Board) (size : Nat) (r : RtMemheap × Nat) : Prop :=
  r.2 ≠ 0 → ∃ a blocks fl, Inv c r.1 blocks fl ∧ ⟨a, true⟩ ∈ blocks ∧ r.2 = userPtr c a ∧
    size ≤ memitemSize c r.1 a

/-- The headers, the two lists and the counters are as they were. -/
structure Unchanged (h h' : RtMemheap) : Prop where
  magic : h'.magic = h.magic
  next : h'.next = h.next
  prev : h'.prev = h.prev
  nextFree : h'.nextFree = h.nextFree
  prevFree : h'.prevFree = h.prevFree
  availableSize : h'.availableSize = h.availableSize
  maxUsedSize : h'.maxUsedSize = h.maxUsedSize

def Sound (c : Board) (h : RtMemheap) (size : Nat) (r : RtMemheap × Nat) : Prop :=
  Served c size r ∧ (r.2 = 0 → Unchanged h r.1)

theorem sound_null : Sound c h size (h, 0) :=
  ⟨fun h0 => absurd rfl h0, fun _ => ⟨rfl, rfl, rfl, rfl, rfl, rfl, rfl⟩⟩

theorem Inv.next_memitemSize (hi : Inv c h blocks fl) {used : Bool} (ha : (⟨a, used⟩ : Block) ∈ blocks) :
    h.next a = a + c.memheapSize + memitemSize c h a ∧
      memitemSize c h a + 2 * c.memheapSize ≤ h.poolSize := by
  obtain ⟨pre, post, rfl⟩ := List.append_of_mem ha
  obtain ⟨hlo, hroom, hend, _, htail, _⟩ := hi.bounds
  have hsize : memitemSize c h a = start post (tailer c h) - a - c.memheapSize :=
    memitemSize_eq hi.fixed hi.tiles
  have hnext : h.next a = start post (tailer c h) := hi.tiles.next_eq
  simp only at hlo hroom
  omega

theorem Inv.memitemSize_lt (hi : Inv c h blocks fl) {used : Bool} (ha : (⟨a, used⟩ : Block) ∈ blocks)
    (hwrap : 2 ^ 32 ≤ size + (c.alignSize - 1)) : memitemSize c h a < size := by
  obtain ⟨_, hle⟩ := hi.next_memitemSize ha
  have hpool := hi.fixed.size_le
  have hH := c.memheapSize_bounds.1
  have halign := Nat.le_of_dvd (show 0 < c.memheapSize by omega) (c.rtAlign_dvd _)
  omega

theorem not_served_wrap {r : RtMemheap × Nat} (hwrap : 2 ^ 32 ≤ size + (c.alignSize - 1)) (hp : r.2 ≠ 0) :
    ¬ Served c size r := by
  intro hserved
  obtain ⟨a, blocks, fl, hi, ha, _, hroom⟩ := hserved hp
  have := hi.memitemSize_lt ha hwrap
  omega

theorem Takes.served {need : Nat} {r : RtMemheap × Nat} (hp : r.2 = userPtr c a)
    (ht : Takes c h blocks need a r.1) (hneed : size ≤ need) : Served c size r := by
  obtain ⟨blocks', ⟨_, fl', hi'⟩, hmem⟩ := ht.becomes
  have ha : (⟨a, true⟩ : Block) ∈ blocks' := (hmem a).mpr (.inl rfl)
  have hnext := (hi'.next_memitemSize ha).1
  have hroom := ht.room
  exact fun _ => ⟨a, blocks', fl', hi', ha, hp, by omega⟩

theorem allocSize_wrap (hzero : rtAlign size c.alignSize = 0) : allocSize c size = memheapMinialloc := by
  unfold allocSize
  rw [hzero]
  rfl

/-! ## One call -/

/-- A size that `rt_memheap_alloc` serves: it is rounded up, or no free block can be
taken for it. -/
def AllocOk (c : Board) (h : RtMemheap) (size : Nat) : Prop :=
  size ≤ rtAlign size c.alignSize ∨
    ∀ blocks fl, Inv c h blocks fl → ¬ Fits c h blocks (allocSize c size)

theorem Inv.sound_iff {n : Nat} (hi : Inv c h blocks fl) (hlt : size < 2 ^ 32)
    (hle : size ≤ rtAlign size c.alignSize → size ≤ allocSize c n) :
    (∀ r, rtMemheapAlloc c (enough h) h n = some r → Sound c h size r) ↔ size ≤ rtAlign size c.alignSize ∨
      ∀ blocks fl, Inv c h blocks fl → ¬ Fits c h blocks (allocSize c n) := by
  constructor
  · intro hsound
    rcases c.rtAlign_cases hlt with hup | ⟨hwrap, _⟩
    · exact .inl hup
    refine .inr fun blocks fl hi hfits => ?_
    obtain ⟨r, hr, ⟨_, hno⟩ | ⟨_, a, hp, _⟩⟩ := rtMemheapAlloc_takes hi n
    · exact hno hfits
    · exact not_served_wrap hwrap (hp ▸ userPtr_ne_zero) (hsound r hr).1
  · intro hok r hr
    obtain ⟨r', hr', hcase⟩ := rtMemheapAlloc_takes hi n
    rw [hr] at hr'
    cases hr'
    rcases hcase with ⟨rfl, _⟩ | ⟨hfits, a, hp, htakes⟩
    · exact sound_null
    · have hup := hok.resolve_right fun hno => hno blocks fl hi hfits
      exact ⟨htakes.served hp (hle hup), fun h0 => absurd (hp ▸ h0) userPtr_ne_zero⟩

/-- **When `rt_memheap_alloc` hands out what was asked for.** -/
theorem Inv.alloc_sound (hi : Inv c h blocks fl) (hlt : size < 2 ^ 32) :
    (∀ r, rtMemheapAlloc c (enough h) h size = some r → Sound c h size r) ↔ AllocOk c h size :=
  hi.sound_iff hlt fun hup => hup.trans rtAlign_le_allocSize

/-- A size that `rt_memheap_realloc` serves. Without a block it is rounded once more. With a block it must be
rounded up, and where a free block lies behind, the sum that is compared with the room must not wrap. -/
def ReallocOk (c : Board) (h : RtMemheap) (ptr size : Nat) : Prop :=
  if ptr = 0 then
    size ≤ rtAlign size c.alignSize ∨
      ∀ blocks fl, Inv c h blocks fl → ¬ Fits c h blocks (allocSize c memheapMinialloc)
  else size ≤ rtAlign size c.alignSize ∧
    (isUsed h (h.next (sub32 ptr c.memheapSize)) ∨ rtAlign size c.alignSize + memheapMinialloc < 2 ^ 32)

theorem Inv.realloc_null_sound (hi : Inv c h blocks fl) (hpos : 0 < size) (hlt : size < 2 ^ 32) :
    (∀ r, rtMemheapRealloc c (enough h) h 0 size = some r → Sound c h size r) ↔ ReallocOk c h 0 size := by
  have hcall : rtMemheapRealloc c (enough h) h 0 size = rtMemheapAlloc c (enough h) h (allocSize c size) := by
    simp only [rtMemheapRealloc, if_neg (Nat.ne_of_gt hpos), if_true]
  rw [hcall, ReallocOk, if_pos rfl, hi.sound_iff hlt fun hup => (hup.trans rtAlign_le_allocSize).trans le_allocSize]
  rcases c.rtAlign_cases hlt with hup | ⟨_, hzero⟩
  · exact iff_of_true (.inl hup) (.inl hup)
  · rw [allocSize_wrap hzero]

theorem rtMemheapRealloc_inPlace {ptr : Nat} (hptr : ptr ≠ 0) (hpos : 0 < size)
    (hle : allocSize c size ≤ memitemSize c h (sub32 ptr c.memheapSize)) (fuel : Nat) :
    ∃ h', rtMemheapRealloc c fuel h ptr size = some (h', ptr) := by
  simp only [rtMemheapRealloc, if_neg (Nat.ne_of_gt hpos), if_neg hptr, if_neg (Nat.not_lt.mpr hle)]
  split
  · exact ⟨h, rfl⟩
  · exact ⟨_, rfl⟩

/-- **A sum that wraps** is smaller than the room behind the block, whatever that is:
the block is said to end before it starts. -/
theorem Inv.realloc_wraps (hi : Inv c h (pre ++ ⟨a, true⟩ :: post) fl)
    (hroomy : memheapMinialloc ≤ memitemSize c h a) (hfree : ¬ isUsed h (h.next a)) (hpos : 0 < size)
    (hwrap : 2 ^ 32 ≤ rtAlign size c.alignSize + memheapMinialloc) :
    ∃ h', rtMemheapRealloc c (enough h) h (userPtr c a) size = some (h', userPtr c a) ∧
      h'.next a < userPtr c a := by
  have hH := c.memheapSize_bounds.1
  have hmini : memheapMinialloc = 12 := rfl
  have hk : c.alignBits ≤ 32 := c.le_word.trans (by decide)
  have hlt : rtAlign size c.alignSize < 2 ^ 32 := rtAlign_lt hk
  have hsize : allocSize c size = rtAlign size c.alignSize := if_neg (by omega)
  obtain ⟨hlo, hroom, hend, htop, htail, _⟩ := hi.bounds
  have hblock : sub32 (userPtr c a) c.memheapSize = a := userPtr_block hi
  obtain ⟨hnext, hold⟩ := hi.next_memitemSize (show (⟨a, true⟩ : Block) ∈ _ by simp)
  have hnext' : h.next a = start post (tailer c h) := hi.tiles.next_eq
  have hafter : a < h.next a := by omega
  have hgrow : memitemSize c h a < allocSize c size := by omega
  -- the room behind, with the block itself, is at least the smallest size
  obtain ⟨m, post', rfl⟩ : ∃ m post', post = ⟨m, false⟩ :: post' := by
    rcases post with _ | ⟨⟨m, used⟩, post'⟩
    · rw [hnext'] at hfree
      exact absurd hi.tiles.isUsed_tailer hfree
    · rw [hnext', start_cons, isUsed_iff (hi.tiles.magic ⟨m, used⟩ (by simp))] at hfree
      exact ⟨m, post', by simpa using hfree⟩
  have hm : Inv c h (pre ++ [⟨a, true⟩] ++ ⟨m, false⟩ :: post') fl := by
    rw [List.append_assoc, List.singleton_append]
    exact hi
  obtain ⟨hmlo, hmroom, hmend, _⟩ := hm.bounds
  have hmsize : memitemSize c h m = start post' (tailer c h) - m - c.memheapSize :=
    memitemSize_eq hm.fixed hm.tiles
  simp only [start_cons] at hnext' hlo hroom hmlo hmroom
  have hsum : add32 (memitemSize c h (h.next a)) (memitemSize c h a) =
      memitemSize c h (h.next a) + memitemSize c h a := by
    rw [hnext', add32_of_lt (by omega)]
  have hwrapped : add32 (allocSize c size) memheapMinialloc <
      add32 (memitemSize c h (h.next a)) (memitemSize c h a) := by
    rw [hsum, hsize]
    unfold add32
    omega
  refine ⟨growBlock h a (userPtr c a) (memitemSize c h a) (allocSize c size), ?_, ?_⟩
  · simp only [rtMemheapRealloc, if_neg (Nat.ne_of_gt hpos), if_neg userPtr_ne_zero, hblock, if_pos hgrow,
      rtAssert_of hafter, bind, Option.bind_some, if_pos (And.intro hfree hwrapped)]
    rfl
  · have hput : (growBlock h a (userPtr c a) (memitemSize c h a) (allocSize c size)).next a =
        add32 (userPtr c a) (allocSize c size) := Function.update_self ..
    rw [hput, hsize]
    unfold userPtr add32
    omega

theorem Resized.sound {live : Finset Nat} {r : RtMemheap × Nat} (hi : Inv c h blocks fl)
    (hl : Live c live blocks) (ha : (⟨a, true⟩ : Block) ∈ blocks)
    (hres : Resizes c h blocks a n r) (hr : Resized c h blocks a (allocSize c n) r)
    (hup : n ≤ rtAlign n c.alignSize) : Sound c h n r := by
  refine ⟨fun hp => ?_, fun h0 => ?_⟩
  · obtain ⟨a', hptr, hroom⟩ := hr.room hp
    obtain ⟨blocks', fl', hi', hl'⟩ := hres.good hi hl ha
    rw [if_pos hp] at hl'
    obtain ⟨x, hx, he⟩ := (hl' r.2).mp (Finset.mem_insert_self ..)
    obtain rfl : a' = x := userPtr_inj (hptr.symm.trans he)
    have hnext := (hi'.next_memitemSize hx).1
    have hsize := hup.trans rtAlign_le_allocSize
    exact ⟨a', blocks', fl', hi', hx, hptr, by simp only at hnext; omega⟩
  · rw [hr.null h0]
    exact ⟨rfl, rfl, rfl, rfl, rfl, rfl, rfl⟩

/-- **When `rt_memheap_realloc` hands out what was asked for**, for a live block of at
least the smallest size. -/
theorem Inv.realloc_sound {live : Finset Nat} (hi : Inv c h blocks fl) (hl : Live c live blocks)
    (ha : (⟨a, true⟩ : Block) ∈ blocks) (hroomy : memheapMinialloc ≤ memitemSize c h a) (hpos : 0 < size)
    (hlt : size < 2 ^ 32) :
    (∀ r, rtMemheapRealloc c (enough h) h (userPtr c a) size = some r → Sound c h size r) ↔
      ReallocOk c h (userPtr c a) size := by
  obtain ⟨pre, post, hsplit⟩ := List.append_of_mem ha
  have hi' : Inv c h (pre ++ ⟨a, true⟩ :: post) fl := hsplit ▸ hi
  have hblock : sub32 (userPtr c a) c.memheapSize = a := userPtr_block hi'
  rw [ReallocOk, if_neg userPtr_ne_zero, hblock]
  constructor
  · intro hsound
    rcases c.rtAlign_cases hlt with hup | ⟨hwrap, hzero⟩
    · refine ⟨hup, ?_⟩
      by_contra hno
      push Not at hno
      obtain ⟨h', hr, hbefore⟩ := hi'.realloc_wraps hroomy hno.1 hpos hno.2
      -- no block can lie there
      obtain ⟨x, blocks', fl', hi2, hx, hptr, _⟩ := (hsound _ hr).1 userPtr_ne_zero
      obtain rfl : a = x := userPtr_inj hptr
      have hnext := (hi2.next_memitemSize hx).1
      simp only at hnext
      unfold userPtr at hbefore
      omega
    · have hsmall : allocSize c size ≤ memitemSize c h (sub32 (userPtr c a) c.memheapSize) := by
        rw [hblock, allocSize_wrap hzero]
        exact hroomy
      obtain ⟨h', hr⟩ := rtMemheapRealloc_inPlace userPtr_ne_zero hpos hsmall (enough h)
      exact absurd (hsound _ hr).1 (not_served_wrap hwrap userPtr_ne_zero)
  · rintro ⟨hup, hfit⟩ r hr
    obtain ⟨r', hr', hres, _, hroom⟩ := rtMemheapRealloc_spec hi ha fun hfree => hfit.resolve_left hfree
    rw [hr] at hr'
    cases hr'
    exact (hroom (Nat.ne_of_gt hpos)).sound hi hl ha hres hup

/-! ## Runs -/

/-- The pointers are valid, and no sum that `rt_memheap_realloc` compares wraps. -/
def Sane (c : Board) (s : State) : Op → Prop
  | .alloc _ => True
  | .realloc ptr newsize => ptr = 0 ∨ ptr ∈ s.live ∧
      (isUsed s.h (s.h.next (sub32 ptr c.memheapSize)) ∨
        rtAlign newsize c.alignSize + memheapMinialloc < 2 ^ 32)
  | .free ptr => ptr = 0 ∨ ptr ∈ s.live

/-- Every live block has room for the smallest size. -/
def Roomy (c : Board) (s : State) : Prop :=
  ∀ x, userPtr c x ∈ s.live → userPtr c x + memheapMinialloc ≤ s.h.next x

variable {s s' : State}

theorem memheapMinialloc_le : memheapMinialloc ≤ allocSize c n := by
  simp only [allocSize]
  split
  · exact le_refl _
  · rename_i hbig
    exact Nat.le_of_not_lt hbig

theorem Roomy.keep (hr : Roomy c s) (hl : Live c s.live blocks) (hk : KeepsNext s.h blocks a h') :
    Roomy c ⟨h', s.live.erase (userPtr c a)⟩ := by
  intro x hx
  obtain ⟨hne, hx⟩ := Finset.mem_erase.mp hx
  obtain ⟨y, hy, he⟩ := (hl _).mp hx
  obtain rfl : x = y := userPtr_inj he
  simp only
  rw [hk x hy fun h0 => hne (by rw [h0])]
  exact hr x hx

theorem Roomy.insert {live : Finset Nat} (hr : Roomy c ⟨h', live⟩)
    (hroom : a + c.memheapSize + allocSize c n ≤ h'.next a) : Roomy c ⟨h', Insert.insert (userPtr c a) live⟩ := by
  have hmin := memheapMinialloc_le (c := c) (n := n)
  intro x hx
  rcases Finset.mem_insert.mp hx with he | hx
  · obtain rfl : x = a := userPtr_inj he
    simp only
    unfold userPtr
    omega
  · exact hr x hx

theorem step_realloc_zero {ptr : Nat} : step c s (.realloc ptr 0) = step c s (.free ptr) := by
  simp only [step, rtMemheapRealloc, if_true]
  cases rtMemheapFree c (enough s.h) s.h ptr with
  | none => rfl
  | some h' => simp

/-- **One sane call** returns, and keeps the memheap good and its blocks roomy. -/
theorem step_roomy {op : Op} (hg : Good c s) (hr : Roomy c s) (hv : Sane c s op) :
    ∃ s', step c s op = some s' ∧ Good c s' ∧ Roomy c s' := by
  obtain ⟨blocks, fl, hi, hl⟩ := hg
  have hnew : ∀ {x : Nat}, (⟨x, true⟩ : Block) ∉ blocks → s.live.erase (userPtr c x) = s.live := by
    intro x hx
    refine Finset.erase_eq_of_notMem fun hm => hx ?_
    obtain ⟨y, hy, he⟩ := (hl _).mp hm
    obtain rfl : x = y := userPtr_inj he
    exact hy
  have halloc : ∀ size, ∃ r, rtMemheapAlloc c (enough s.h) s.h size = some r ∧
      Good c ⟨r.1, if r.2 = 0 then s.live else insert r.2 s.live⟩ ∧
      Roomy c ⟨r.1, if r.2 = 0 then s.live else insert r.2 s.live⟩ := by
    intro size
    obtain ⟨r, hcall, ⟨rfl, _⟩ | ⟨_, a, hp, htakes⟩⟩ := rtMemheapAlloc_takes hi size
    · exact ⟨_, hcall, ⟨blocks, fl, hi, hl⟩, hr⟩
    · obtain ⟨blocks', ⟨_, fl', hi'⟩, hmem⟩ := htakes.becomes
      refine ⟨r, hcall, ?_⟩
      rw [hp, if_neg userPtr_ne_zero]
      have hkeep := hr.keep hl htakes.keeps
      rw [hnew htakes.new] at hkeep
      exact ⟨⟨blocks', fl', hi', hl.insert hmem⟩, hkeep.insert htakes.room⟩
  have hfree : ∀ ptr, ptr = 0 ∨ ptr ∈ s.live → ∃ s', step c s (.free ptr) = some s' ∧ Good c s' ∧ Roomy c s' := by
    rintro ptr (rfl | hptr)
    · refine ⟨s, ?_, ⟨blocks, fl, hi, hl⟩, hr⟩
      simp only [step, rtMemheapFree_null, bind, Option.bind_some, hl.erase_zero]
      rfl
    · obtain ⟨a, ha, rfl⟩ := (hl ptr).mp hptr
      obtain ⟨h', hcall, ⟨blocks', ⟨_, fl', hi'⟩, hmem⟩, hk⟩ := rtMemheapFree_spec hi ha (le_refl _)
      exact ⟨⟨h', s.live.erase (userPtr c a)⟩, by simp only [step, hcall, bind, Option.bind_some]; rfl,
        ⟨blocks', fl', hi', hl.erase hmem⟩, hr.keep hl hk⟩
  cases op with
  | alloc size =>
    obtain ⟨r, hcall, hg', hr'⟩ := halloc size
    exact ⟨_, by simp only [step, hcall, bind, Option.bind_some]; rfl, hg', hr'⟩
  | free ptr => exact hfree ptr hv
  | realloc ptr newsize =>
    by_cases hzero : newsize = 0
    · subst hzero
      rw [step_realloc_zero]
      exact hfree ptr (hv.imp_right And.left)
    rcases hv with rfl | ⟨hptr, hfit⟩
    · have hsame : rtMemheapRealloc c (enough s.h) s.h 0 newsize =
          rtMemheapAlloc c (enough s.h) s.h (allocSize c newsize) := by
        simp only [rtMemheapRealloc, if_neg hzero, if_true]
      obtain ⟨r, hcall, hg', hr'⟩ := halloc (allocSize c newsize)
      refine ⟨_, by simp only [step, hsame, hcall, bind, Option.bind_some]; rfl, ?_⟩
      rw [hl.erase_zero, if_neg hzero, ite_not]
      exact ⟨hg', hr'⟩
    · obtain ⟨a, ha, rfl⟩ := (hl ptr).mp hptr
      obtain ⟨pre, post, hsplit⟩ := List.append_of_mem ha
      have hblock : sub32 (userPtr c a) c.memheapSize = a := userPtr_block (hsplit ▸ hi)
      rw [hblock] at hfit
      obtain ⟨r, hcall, hres, hk, hroom⟩ :=
        rtMemheapRealloc_spec hi ha fun hunused => hfit.resolve_left hunused
      refine ⟨_, by simp only [step, hcall, bind, Option.bind_some]; rfl, hres.good hi hl ha, ?_⟩
      by_cases hp : r.2 = 0
      · rw [if_neg (not_not.mpr hp), if_neg hzero, (hroom hzero).null hp]
        exact hr
      · obtain ⟨a', hptr', hroom'⟩ := (hroom hzero).room hp
        rw [if_pos hp, hptr']
        exact (hr.keep hl hk).insert hroom'

/-- The states reached from a new memheap by sane calls. -/
inductive Reached (c : Board) (start : RtMemheap) : State → Prop
  | init : Reached c start ⟨start, ∅⟩
  | step {s s' : State} (h : Reached c start s) (op : Op) (hv : Sane c s op)
      (hs : step c s op = some s') : Reached c start s'

theorem Reached.good {start : RtMemheap} (hi : Inv c start [⟨start.startAddr, false⟩] [start.startAddr])
    (h : Reached c start s) : Good c s ∧ Roomy c s := by
  induction h with
  | init => exact ⟨⟨_, _, hi, by simp [Live]⟩, fun x hx => absurd hx (Finset.notMem_empty _)⟩
  | step _ op hv hs ih =>
    obtain ⟨s', he, hg, hr⟩ := step_roomy ih.1 ih.2 hv
    rw [hs] at he
    cases he
    exact ⟨hg, hr⟩

section Sizes
variable {l : Place} {mem start : RtMemheap} {ptr : Nat}

/-- In every state that sane calls reach from a memheap `rt_memheap_init` made of a
pool with room for its two headers: when `rt_memheap_alloc` keeps the promise. -/
theorem rtMemheapAlloc_sound (hinit : rtMemheapInit c l mem = some start)
    (hpool : 2 * c.memheapSize ≤ l.size) (h : Reached c start s) (hlt : size < 2 ^ 32) :
    (∀ r, rtMemheapAlloc c (enough s.h) s.h size = some r → Sound c s.h size r) ↔ AllocOk c s.h size := by
  obtain ⟨⟨blocks, fl, hi, _⟩, _⟩ := h.good (rtMemheapInit_inv hinit hpool)
  exact hi.alloc_sound hlt

theorem rtMemheapRealloc_sound (hinit : rtMemheapInit c l mem = some start)
    (hpool : 2 * c.memheapSize ≤ l.size) (h : Reached c start s) (hptr : ptr = 0 ∨ ptr ∈ s.live)
    (hpos : 0 < size) (hlt : size < 2 ^ 32) :
    (∀ r, rtMemheapRealloc c (enough s.h) s.h ptr size = some r → Sound c s.h size r) ↔
      ReallocOk c s.h ptr size := by
  obtain ⟨⟨blocks, fl, hi, hl⟩, hr⟩ := h.good (rtMemheapInit_inv hinit hpool)
  rcases hptr with rfl | hptr
  · exact hi.realloc_null_sound hpos hlt
  · obtain ⟨a, ha, rfl⟩ := (hl ptr).mp hptr
    have hroom := hr a hptr
    have hnext := (hi.next_memitemSize ha).1
    unfold userPtr at hroom
    exact hi.realloc_sound hl ha (by omega) hpos hlt

end Sizes

/-! ## Whether a block is found -/

/-- `rt_memheap_alloc` returns, and `RT_NULL` only if no block of the free list is large enough. -/
def Complete (c : Board) (h : RtMemheap) (fl : List Nat) (size : Nat) : Prop :=
  ∃ r, rtMemheapAlloc c (enough h) h size = some r ∧ (r.2 = 0 → ∀ a ∈ fl, memitemSize c h a < allocSize c size)

theorem Inv.memitemSize_le (hi : Inv c h blocks fl) (ha : a ∈ fl) : memitemSize c h a ≤ h.availableSize := by
  obtain ⟨pre, post, rfl, hsize⟩ := hi.memitemSize_free ha
  have hsum := hi.available
  simp only [freeSum_append, freeSum_free] at hsum
  omega

/-- **When an allocation finds a block.** The bytes asked for are compared with the available ones as if one more
were needed, so that the one free block that has all of them is not found. -/
theorem alloc_complete_iff (hi : Inv c h blocks fl) : Complete c h fl size ↔
    ¬(allocSize c size = h.availableSize ∧ ∃ a ∈ fl, memitemSize c h a = h.availableSize) := by
  constructor
  · rintro ⟨r, hr, hnone⟩ ⟨hall, a, ha, hsize⟩
    have hnull : rtMemheapAlloc c (enough h) h size = some (h, 0) := by
      simp only [rtMemheapAlloc, hall, Nat.lt_irrefl, if_false]
    cases hr.symm.trans hnull
    have hlt := hnone rfl a ha
    omega
  · intro hother
    obtain ⟨r, hr, ⟨rfl, hno⟩ | ⟨_, x, hp, _⟩⟩ := rtMemheapAlloc_takes hi size
    · refine ⟨_, hr, fun _ a ha => Nat.lt_of_not_le fun hroom => ?_⟩
      have hle := hi.memitemSize_le ha
      rcases Nat.lt_or_ge (allocSize c size) h.availableSize with hlt | hge
      · exact hno ⟨hlt, a, mem_freeOffs.mp (hi.perm.mem_iff.mp ha), hroom⟩
      · exact hother ⟨by omega, a, ha, by omega⟩
    · exact ⟨r, hr, fun h0 => absurd (hp ▸ h0) userPtr_ne_zero⟩

theorem small_inv : ∃ start, rtMemheapInit smallBoard smallPlace blank = some start ∧
    Inv smallBoard start [⟨8192, false⟩] [8192] ∧ start.availableSize = 80 := by
  obtain ⟨start, hinit⟩ : ∃ h, rtMemheapInit smallBoard smallPlace blank = some h := ⟨_, rfl⟩
  have hi := rtMemheapInit_inv hinit (by decide)
  refine ⟨start, hinit, ?_⟩
  cases hinit
  exact ⟨hi, rfl⟩

/-- A block for 76 bytes is found in a new memheap with 80 available ones. -/
theorem alloc_complete_iff_small : ∃ start, rtMemheapInit smallBoard smallPlace blank = some start ∧
    Complete smallBoard start [8192] 76 := by
  obtain ⟨start, hinit, hi, havail⟩ := small_inv
  refine ⟨start, hinit, (alloc_complete_iff hi).mpr fun h => ?_⟩
  rw [havail] at h
  exact absurd h.1 (by decide)

/-- All of the 80 bytes are not handed out. -/
theorem alloc_misses_block : ∃ start, rtMemheapInit smallBoard smallPlace blank = some start ∧
    Inv smallBoard start [⟨8192, false⟩] [8192] ∧ ¬ Complete smallBoard start [8192] 80 := by
  obtain ⟨start, hinit, hi, _⟩ := small_inv
  refine ⟨start, hinit, hi, ?_⟩
  cases hinit
  rintro ⟨r, hr, hnone⟩
  cases hr
  exact absurd (hnone rfl 8192 (List.mem_singleton_self _)) (by decide)

end RtosKernel.RtThread.Memheap
