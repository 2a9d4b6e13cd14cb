import RtosKernel.RtThread.SlabCalls

/-! # Runs of the slab allocator -/
namespace RtosKernel.RtThread.Slab
open Lib.Word Lib.PageRuns Lib.Runs RtThread.Def List

variable {slab slab' : RtSlab} {skip : Option Nat} {z z' p : Nat} {l l' : Live}

/-! ## What is live is apart -/

theorem Inv.zones_far (h : Inv slab skip) (hz : z ∈ slab.zones) (hz' : z' ∈ slab.zones) (hne : z ≠ z') :
    z * RT_MM_PAGE_SIZE + slab.zoneSize ≤ z' * RT_MM_PAGE_SIZE ∨
      z' * RT_MM_PAGE_SIZE + slab.zoneSize ≤ z * RT_MM_PAGE_SIZE := by
  have hb := h.geometry.bounds
  have hapart : (Run.mk z slab.zonePageCnt).Apart ⟨z', slab.zonePageCnt⟩ := fun p hp => hne (h.zone_eq hz hz' hp.1 hp.2)
  have := hapart.bounds hb.2.2.2.2.2 hb.2.2.2.2.2
  simp only [RT_MM_PAGE_SIZE] at *
  omega

theorem Inv.block_far (h : Inv slab skip) (hl : l ∈ slab.live) (hzone : l.zone = none) (hz : z ∈ slab.zones) :
    l.ptr + l.bytes ≤ z * RT_MM_PAGE_SIZE ∨ z * RT_MM_PAGE_SIZE + slab.zoneSize ≤ l.ptr := by
  have hb := h.geometry.bounds
  obtain ⟨hmod, n, hn, hbytes, -⟩ := h.large l hl hzone
  have hapart : (Run.mk (l.ptr / RT_MM_PAGE_SIZE) n).Apart ⟨z, slab.zonePageCnt⟩ := fun p hp => by
    obtain ⟨hlow, hhigh⟩ := hp.1
    have hblock := h.blocks_pos hl hzone (p := p) (by simp only [RT_MM_PAGE_SIZE] at *; omega)
    have := zoneRuns_pos hz hp.2
    have := h.pages_le p
    omega
  have := hapart.bounds hn hb.2.2.2.2.2
  simp only [RT_MM_PAGE_SIZE] at *
  omega

theorem Inv.in_heap (h : Inv slab none) (hl : l ∈ slab.live) :
    0 < l.bytes ∧ l.ptr + l.bytes ≤ npages slab * RT_MM_PAGE_SIZE := by
  have hb := h.geometry.bounds
  have hlast : ∀ p, 0 < owners (blocks slab.live) p + owners (zoneRuns slab.zonePageCnt slab.zones) p →
      p < npages slab := by
    intro p hp
    have := h.pages p
    by_contra hge
    rw [if_neg hge] at this
    omega
  cases hzone : l.zone with
  | none =>
    obtain ⟨hmod, n, hn, hbytes, -⟩ := h.large l hl hzone
    have := hlast (l.ptr / RT_MM_PAGE_SIZE + (n - 1)) (Nat.add_pos_left
      (h.blocks_pos hl hzone (by simp only [RT_MM_PAGE_SIZE] at *; omega)) _)
    simp only [RT_MM_PAGE_SIZE] at *
    omega
  | some z =>
    obtain ⟨hz, hfree⟩ := h.chunk l hl z hzone
    obtain ⟨-, hhigh, hpos⟩ := (h.zoneOk hz hfree).inside hl hzone
    have := hlast (z + (slab.zonePageCnt - 1)) (Nat.add_pos_right _ (zoneRuns_pos hz (by omega)))
    simp only [RT_MM_PAGE_SIZE] at *
    omega

theorem Inv.apart_pair (h : Inv slab none) (hl : l ∈ slab.live) (hl' : l' ∈ slab.live)
    (hblocks : ∀ r ∈ l.run, ∀ s ∈ l'.run, r.Apart s)
    (hslots : ∀ z, l.zone = some z → l'.zone = some z → l.ptr ≠ l'.ptr) :
    l.ptr + l.bytes ≤ l'.ptr ∨ l'.ptr + l'.bytes ≤ l.ptr := by
  cases hzone : l.zone with
  | none =>
    cases hzone' : l'.zone with
    | none =>
      obtain ⟨hmod, n, hn, hbytes, -⟩ := h.large l hl hzone
      obtain ⟨hmod', n', hn', hbytes', -⟩ := h.large l' hl' hzone'
      have := (hblocks _ (if_pos hzone) _ (if_pos hzone')).bounds (by simp only [RT_MM_PAGE_SIZE] at *; omega)
        (by simp only [RT_MM_PAGE_SIZE] at *; omega)
      simp only [RT_MM_PAGE_SIZE] at *
      omega
    | some z =>
      obtain ⟨hz, hfree⟩ := h.chunk l' hl' z hzone'
      obtain ⟨hlow, hhigh, -⟩ := (h.zoneOk hz hfree).inside hl' hzone'
      have := h.block_far hl hzone hz
      omega
  | some z =>
    obtain ⟨hz, hfree⟩ := h.chunk l hl z hzone
    have hok := h.zoneOk hz hfree
    obtain ⟨hlow, hhigh, -⟩ := hok.inside hl hzone
    cases hzone' : l'.zone with
    | none =>
      have := h.block_far hl' hzone' hz
      omega
    | some z' =>
      obtain ⟨hz', hfree'⟩ := h.chunk l' hl' z' hzone'
      obtain ⟨hlow', hhigh', -⟩ := (h.zoneOk hz' hfree').inside hl' hzone'
      by_cases hne : z = z'
      · subst hne
        obtain ⟨i, hi, hp⟩ := hok.slot (mem_chunks.mpr ⟨l, hl, hzone, rfl⟩)
        obtain ⟨j, hj, hp'⟩ := hok.slot (mem_chunks.mpr ⟨l', hl', hzone', rfl⟩)
        have hij : i ≠ j := fun he => hslots z hzone hzone' (by rw [hp, hp', he])
        rw [hp, hp', hok.bytes l hl hzone, hok.bytes l' hl' hzone', Nat.add_assoc, Nat.add_assoc, ← Nat.succ_mul,
          ← Nat.succ_mul]
        rcases Nat.lt_or_gt_of_ne hij with hlt | hlt
        · exact .inl (Nat.add_le_add_left (Nat.mul_le_mul_right _ hlt) _)
        · exact .inr (Nat.add_le_add_left (Nat.mul_le_mul_right _ hlt) _)
      · have := h.zones_far hz hz' hne
        omega

theorem ZoneOk.nodup {zoneSize : Nat} {live : List Live} {zoneArray : Nat → List Nat} {v : Zone}
    (h : ZoneOk zoneSize live zoneArray z v) : (chunks live z).Nodup := by
  have hinj : Function.Injective fun i => v.baseptr + i * v.chunksize := fun i j hij =>
    Nat.eq_of_mul_eq_mul_right h.pos (Nat.add_left_cancel hij)
  exact (h.slots.nodup_iff.mpr (nodup_range.map hinj)).sublist (sublist_append_left ..)

theorem Inv.apart (h : Inv slab none) :
    slab.live.Pairwise fun l l' => l.ptr + l.bytes ≤ l'.ptr ∨ l'.ptr + l'.bytes ≤ l.ptr := by
  have hblocks : slab.live.Pairwise fun l l' => ∀ r ∈ l.run, ∀ s ∈ l'.run, r.Apart s :=
    pairwise_filterMap.mp (pairwise_apart fun p => by
      have := h.pages_le p
      rw [blocks] at this
      omega)
  have hslots : ∀ z ∈ slab.zones, z ∉ slab.zoneFree →
      slab.live.Pairwise fun l l' => l.zone = some z → l'.zone = some z → l.ptr ≠ l'.ptr := fun z hz hfree => by
    have hnodup := (h.zoneOk hz hfree).nodup
    exact (pairwise_filter.mp (pairwise_map.mp hnodup)).imp fun hab ha hb =>
      hab (by simpa using ha) (by simpa using hb)
  rw [pairwise_iff_getElem] at hblocks ⊢
  intro i j hi hj hij
  refine h.apart_pair (getElem_mem hi) (getElem_mem hj) (hblocks i j hi hj hij) fun z hz hz' => ?_
  obtain ⟨hmem, hfree⟩ := h.chunk _ (getElem_mem hi) z hz
  exact pairwise_iff_getElem.mp (hslots z hmem hfree) i j hi hj hij hz hz'

theorem Inv.sum_le (h : Inv slab none) : (slab.live.map Live.bytes).sum ≤ npages slab * RT_MM_PAGE_SIZE := by
  have hpairs : (slab.live.map fun l => Run.mk l.ptr l.bytes).Pairwise Run.Apart :=
    pairwise_map.mpr (h.apart.imp fun hab p hp => by
      have := hp.1.1
      have := hp.1.2
      have := hp.2.1
      have := hp.2.2
      simp only at *
      omega)
  have hsum := sum_pages_le_of_apart hpairs (n := npages slab * RT_MM_PAGE_SIZE) fun r hr => by
    obtain ⟨l, hl, rfl⟩ := List.mem_map.mp hr
    exact (h.in_heap hl).2
  rwa [List.map_map] at hsum

theorem Inv.sound (h : Inv slab none) (hasked : ∀ l ∈ slab.live, slab.asked l.ptr ≤ l.bytes) : Sound slab where
  pages p := by
    rw [← h.pages p, holders, owners_append, owners_append, owners_append]
    rfl
  runs := h.runs.ascending
  zones z hz := by
    by_cases hfree : z ∈ slab.zoneFree
    · exact .inl ⟨hfree, (h.idle z hfree).2⟩
    · have hok := h.zoneOk hz hfree
      exact .inr ⟨hok.nfree, hok.array, hfree⟩
  lists := ⟨h.zones_nodup, h.nodup.1, h.nodup.2, fun z hz => (h.idle z hz).1, h.array⟩
  inside l hl z hzone := by
    obtain ⟨hz, hfree⟩ := h.chunk l hl z hzone
    obtain ⟨hlow, hhigh, -⟩ := (h.zoneOk hz hfree).inside hl hzone
    exact ⟨hz, hfree, hlow, hhigh⟩
  apart := h.apart
  large := hasked
  free := h.cnt
  used := by
    rw [h.used, Nat.mod_eq_of_lt (Nat.lt_of_le_of_lt h.sum_le h.geometry.small)]

/-! ## Calls -/

/-- What a call that returns a pointer leaves: the pointer has room, and any other one was live before. -/
structure Returned (slab : RtSlab) (size : Nat) (r : RtSlab × Option Nat) : Prop where
  inv : Inv r.1 none
  asked : r.1.asked = slab.asked
  room : ∀ l ∈ r.1.live, r.2 = some l.ptr → size ≤ l.bytes
  other : ∀ l ∈ r.1.live, r.2 ≠ some l.ptr → l ∈ slab.live

theorem Alloced.returned {size : Nat} {r : RtSlab × Option Nat} (h : Alloced slab size r) : Returned slab size r := by
  refine ⟨h.inv, h.asked, fun l hl hr => ?_, fun l hl hr => ?_⟩
  · obtain ⟨new, hlive, hptr, hroom⟩ := h.some l.ptr hr
    have hapart := h.inv.apart
    have hold := h.inv.in_heap hl
    rw [hlive] at hl hapart
    rcases mem_cons.mp hl with rfl | hmem
    · exact hroom
    · have := (pairwise_cons.mp hapart).1 l hmem
      omega
  · cases hr' : r.2 with
    | none => exact h.none hr' ▸ hl
    | some ptr =>
      obtain ⟨new, hlive, rfl, -⟩ := h.some ptr hr'
      rw [hlive] at hl
      rcases mem_cons.mp hl with rfl | hmem
      · exact absurd hr' hr
      · exact hmem

theorem Inv.moveTo {ptr size : Nat} (h : Inv slab none) (hptr : ptr ∈ slab.live.map Live.ptr) (hsize : size < 2 ^ 32) :
    ∃ r, moveTo slab ptr size = .ok r ∧ Returned slab size r := by
  obtain ⟨⟨slab₁, nptr⟩, hgo, halloc⟩ := h.rtSlabAlloc hsize
  have hret := halloc.returned
  unfold Slab.moveTo
  rw [hgo]
  cases nptr with
  | none => exact ⟨_, rfl, hret⟩
  | some nptr =>
    obtain ⟨new, hlive, -, -⟩ := halloc.some nptr rfl
    have hptr₁ : ptr ∈ slab₁.live.map Live.ptr := by
      rw [hlive]
      exact mem_cons_of_mem _ hptr
    obtain ⟨slab₂, hfree, hfreed⟩ := halloc.inv.rtSlabFree hptr₁
    have hmem : ∀ l ∈ slab₂.live, l ∈ slab₁.live := fun l hl => mem_of_mem_eraseP (hfreed.live ▸ hl)
    refine ⟨(slab₂, some nptr), ?_, hfreed.inv, hfreed.asked.trans hret.asked, fun l hl => hret.room l (hmem l hl),
      fun l hl => hret.other l (hmem l hl)⟩
    change (Slab.rtSlabFree slab₁ ptr).map _ = _
    rw [hfree]
    rfl

theorem le_zoneindex {n : Nat} (hpos : 0 < n) :
    n ≤ (zoneindex n).2 ∧ ((zoneindex n).2 ≤ 16384 ∨ (zoneindex n).2 = n) := by
  by_cases hn : n < 16384
  · have hr := zoneindex_spec hpos hn
    exact ⟨hr.le, .inl hr.max⟩
  · have heq : zoneindex n = (0, n) := by
      unfold zoneindex
      repeat rw [if_neg (by omega)]
    rw [heq]
    exact ⟨Nat.le_refl _, .inr rfl⟩

theorem Inv.rtSlabRealloc {ptr : Option Nat} {size : Nat} (h : Inv slab none) (hptr : Passable slab ptr)
    (hsize : size < 2 ^ 32) : ∃ r, rtSlabRealloc slab ptr size = .ok r ∧ Returned slab size r := by
  unfold Slab.rtSlabRealloc
  cases ptr with
  | none =>
    obtain ⟨r, hgo, hr⟩ := h.rtSlabAlloc hsize
    exact ⟨r, hgo, hr.returned⟩
  | some ptr =>
    have hptr : ptr ∈ slab.live.map Live.ptr := hptr ptr rfl
    dsimp only
    split
    · obtain ⟨slab', hgo, hfreed⟩ := h.rtSlabFree hptr
      refine ⟨(slab', none), by rw [hgo]; rfl, hfreed.inv, hfreed.asked, fun l _ hr => (by cases hr), fun l hl _ => ?_⟩
      exact mem_of_mem_eraseP (hfreed.live ▸ hl)
    rename_i hne
    obtain ⟨hle, hmax⟩ := le_zoneindex (Nat.pos_of_ne_zero hne)
    split
    · exact h.moveTo hptr hsize
    · rename_i hsmall
      -- A live pointer into pages of this type is a chunk of the zone behind it.
      have hzone : ∀ l ∈ slab.live, l.ptr = ptr → (slab.zone (Slab.zoneOf slab ptr)).magic = ZALLOC_SLAB_MAGIC ∧
          l.bytes = (slab.zone (Slab.zoneOf slab ptr)).chunksize := by
        rintro l hl rfl
        cases hzone : l.zone with
        | none =>
          obtain ⟨-, n, -, -, hu⟩ := h.large l hl hzone
          rw [hu] at hsmall
          cases hsmall
        | some z =>
          obtain ⟨hz, hfree⟩ := h.chunk l hl z hzone
          have hok := h.zoneOk hz hfree
          obtain ⟨hlow, hhigh, hpos⟩ := hok.inside hl hzone
          rw [(h.zoneOf hz (p := l.ptr) (by omega) (by omega)).2]
          exact ⟨hok.magic, hok.bytes l hl hzone⟩
      obtain ⟨l, hl, hl'⟩ := List.mem_map.mp hptr
      rw [if_neg (not_not.mpr (hzone l hl hl').1)]
      split
      · rename_i hsame
        refine ⟨_, rfl, h, rfl, fun l hl hr => ?_, fun l hl _ => hl⟩
        rw [(hzone l hl (Option.some.inj hr).symm).2, hsame]
        exact hle
      · have hword : (zoneindex size).2 < 2 ^ 32 := by omega
        obtain ⟨r, hgo, hr⟩ := h.moveTo hptr hword
        exact ⟨r, hgo, hr.inv, hr.asked, fun l hl hp => Nat.le_trans hle (hr.room l hl hp), hr.other⟩
    · exact ⟨_, rfl, h, rfl, fun l _ hr => (by cases hr), fun l hl _ => hl⟩

/-! ## Runs -/

structure Kept (slab : RtSlab) : Prop where
  inv : Inv slab none
  asked : ∀ l ∈ slab.live, slab.asked l.ptr ≤ l.bytes

theorem Returned.kept {size : Nat} {r : RtSlab × Option Nat} (h : Returned slab size r) (hslab : Kept slab) :
    Kept (ask size r) := by
  unfold ask
  split
  · rename_i ptr hr
    refine ⟨?_, fun l hl => ?_⟩
    · have := h.inv
      exact ⟨this.geometry.congr rfl rfl rfl rfl, this.pages, this.runs, this.zone, this.idle, this.array, this.nodup,
        this.usage, this.large, this.chunk, this.cnt, this.used⟩
    · dsimp only
      by_cases hp : l.ptr = ptr
      · rw [hp, Function.update_self]
        exact h.room l hl (hr.trans (congrArg some hp.symm))
      · rw [Function.update_of_ne hp, h.asked]
        exact hslab.asked l (h.other l hl fun he => hp (Option.some.inj (he.symm.trans hr)))
  · rename_i hr
    refine ⟨h.inv, fun l hl => ?_⟩
    rw [h.asked]
    exact hslab.asked l (h.other l hl (by rw [hr]; nofun))

theorem Kept.step (h : Kept slab) (call : Call) :
    step slab call = .error .refused ∨ ∃ slab', step slab call = .ok slab' ∧ Kept slab' := by
  cases call with
  | alloc size =>
    simp only [Slab.step]
    split
    · rename_i hsize
      obtain ⟨r, hgo, hr⟩ := h.inv.rtSlabAlloc hsize
      exact .inr ⟨_, by rw [hgo]; rfl, hr.returned.kept h⟩
    · exact .inl rfl
  | realloc ptr size =>
    simp only [Slab.step]
    split
    · rename_i hok
      obtain ⟨r, hgo, hr⟩ := h.inv.rtSlabRealloc hok.2 hok.1
      exact .inr ⟨_, by rw [hgo]; rfl, hr.kept h⟩
    · exact .inl rfl
  | free ptr =>
    simp only [Slab.step]
    split
    · rename_i hptr
      cases ptr with
      | none => exact .inr ⟨slab, rfl, h⟩
      | some ptr =>
        obtain ⟨slab', hgo, hfreed⟩ := h.inv.rtSlabFree (hptr ptr rfl)
        refine .inr ⟨slab', hgo, hfreed.inv, fun l hl => ?_⟩
        rw [hfreed.asked]
        exact h.asked l (mem_of_mem_eraseP (hfreed.live ▸ hl))
    · exact .inl rfl

theorem zoneSizeFor_cases (limsize : Nat) : zoneSizeFor limsize 2 ZALLOC_MIN_ZONE_SIZE = 32768 ∨
    zoneSizeFor limsize 2 ZALLOC_MIN_ZONE_SIZE = 65536 ∨ zoneSizeFor limsize 2 ZALLOC_MIN_ZONE_SIZE = 131072 := by
  unfold zoneSizeFor
  split
  · unfold zoneSizeFor
    split
    · exact .inr (.inr rfl)
    · exact .inr (.inl rfl)
  · exact .inl rfl

theorem emptySlab_inv {beginAlign endAlign : Nat} (memusage : Nat → Memusage) (zone : Nat → Zone)
    (hpages : (endAlign - beginAlign) / RT_MM_PAGE_SIZE ≠ 0) (hend : endAlign < 2 ^ 32) :
    Inv (emptySlab beginAlign endAlign [⟨0, (endAlign - beginAlign) / RT_MM_PAGE_SIZE⟩] memusage zone) none := by
  refine ⟨⟨zoneSizeFor_cases _, rfl, rfl, ?_⟩, fun p => ?_, FreeRuns.nil.cons (Nat.pos_of_ne_zero hpages) (by simp), ?_,
    ?_, ?_, ⟨nodup_nil, fun _ => nodup_nil⟩, ?_, ?_, ?_, ⟨rfl, Nat.zero_le _⟩, rfl⟩
  · change (endAlign - beginAlign) / RT_MM_PAGE_SIZE * RT_MM_PAGE_SIZE < 2 ^ 32
    simp only [RT_MM_PAGE_SIZE]
    omega
  · change owners [⟨0, (endAlign - beginAlign) / RT_MM_PAGE_SIZE⟩] p = _
    rw [owners_cons, owners_nil, Run.at, Nat.add_zero]
    exact if_congr (by simp [Run.Has, npages, emptySlab]) rfl rfl
  · exact fun _ hin => by cases hin
  · exact fun _ hin => by cases hin
  · exact fun _ _ hin => by cases hin
  all_goals exact fun _ hin => by cases hin

theorem Inv.allocArray {n : Nat} (h : Inv slab none) (hnone : slab.array = none)
    (harray : (allocArray slab n).array.isSome = true) : Inv (Slab.allocArray slab n) none := by
  unfold Slab.allocArray at *
  dsimp only at *
  generalize rtAlign (n * sizeofMemusage) RT_MM_PAGE_SIZE / RT_MM_PAGE_SIZE = pages at *
  rcases rtSlabPageAlloc_cases slab pages with he | ⟨page, pageList, hgo, he⟩
  · rw [he] at harray
    cases harray
  · rw [he]
    obtain ⟨hfree, hcount, -⟩ := h.taken hgo
    refine ⟨h.geometry.congr rfl rfl rfl rfl, fun p => ?_, hfree, h.zone, h.idle, h.array, h.nodup, h.usage, h.large,
      h.chunk, h.cnt, h.used⟩
    have := h.pages p
    rw [hnone, hcount p] at this
    change owners pageList p + owners [⟨page, pages⟩] p + owners (blocks slab.live) p +
      owners (zoneRuns slab.zonePageCnt slab.zones) p = if p < npages slab then 1 else 0
    rw [owners_cons]
    simp only [Option.toList_none, owners_nil] at this ⊢
    omega

theorem rtSlabInit_kept {alignSize sizeofSlab beginAddr size : Nat} {memusage : Nat → Memusage} {zone : Nat → Zone}
    (hinit : rtSlabInit alignSize sizeofSlab beginAddr size memusage zone = .ok (some slab))
    (harray : slab.array.isSome = true) : Kept slab := by
  have hend : rtAlignDown (add32 beginAddr size) RT_MM_PAGE_SIZE < 2 ^ 32 := by
    have hpow : RT_MM_PAGE_SIZE = 2 ^ 12 := rfl
    rw [hpow, rtAlignDown_eq (by decide) (add32_lt _ _)]
    exact Nat.lt_of_le_of_lt (Nat.sub_le ..) (add32_lt _ _)
  simp only [rtSlabInit] at hinit
  split at hinit
  · cases hinit
  split at hinit
  · cases hinit
  rename_i hpages
  rw [not_or] at hpages
  cases hinit
  refine ⟨(emptySlab_inv memusage zone hpages.2 hend).allocArray rfl harray, fun l hl => ?_⟩
  rcases rtSlabPageAlloc_cases (emptySlab _ _ _ memusage zone) _ with he | ⟨page, pageList, hgo, he⟩ <;>
    rw [allocArray, he] at hl <;> cases hl

/-- Any calls on a heap whose array was obtained: no assertion fails, and every state is sound. -/
theorem slab_sound {alignSize sizeofSlab beginAddr size : Nat} {memusage : Nat → Memusage} {zone : Nat → Zone}
    (hinit : rtSlabInit alignSize sizeofSlab beginAddr size memusage zone = .ok (some slab))
    (harray : slab.array.isSome = true) (calls : List Call) :
    run step slab calls ≠ .error .assert ∧ run step slab calls ≠ .error .fault ∧
      ∀ slab', run step slab calls = .ok slab' → Sound slab' := by
  have hkept := rtSlabInit_kept hinit harray
  have hstep : ∀ slab call slab', Kept slab → True → step slab call = .ok slab' → Kept slab' := by
    intro slab call slab' h _ hs
    rcases h.step call with he | ⟨slab'', he, h'⟩
    · cases he.symm.trans hs
    · cases he.symm.trans hs
      exact h'
  have hno : ∀ stop, stop ≠ .refused → ∀ slab call, Kept slab → True → step slab call ≠ .error stop := by
    intro stop hne slab call h _ hs
    rcases h.step call with he | ⟨slab', he, _⟩
    · cases he.symm.trans hs
      exact hne rfl
    · cases he.symm.trans hs
  have hall : Along step (fun _ _ => True) slab calls := Along.of_all (fun _ _ => trivial) slab
  refine ⟨run_no_stop hstep (hno _ nofun) hkept hall, run_no_stop hstep (hno _ nofun) hkept hall, fun slab' hrun => ?_⟩
  have hend := run_inv hstep hkept hall hrun
  exact hend.inv.sound hend.asked

/-- Chunks of three sizes, one of them given back and one too large for its zone now, and blocks out of pages. -/
def someCalls : List Call :=
  [.alloc 10, .alloc 8000, .alloc 5, .alloc 10, .free (some 4144), .alloc 20000, .realloc (some 45056) 9000,
    .realloc (some 69672) 8, .free none]

theorem slab_sound_someCalls : ∃ slab slab',
    rtSlabInit 8 400 4000 170000 (fun _ => ⟨.free, 0⟩) (fun _ => ⟨0, 0, 0, 0, 0, 0, 0, []⟩) = .ok (some slab) ∧
      run step slab someCalls = .ok slab' ∧ Sound slab' ∧ slab'.live.map Live.ptr = [122880, 102400, 4160, 69672] := by
  have hinit : rtSlabInit 8 400 4000 170000 (fun _ => ⟨.free, 0⟩) (fun _ => ⟨0, 0, 0, 0, 0, 0, 0, []⟩) =
      .ok (some _) := rfl
  exact ⟨_, _, hinit, rfl, (slab_sound hinit rfl someCalls).2.2 _ rfl, by decide +kernel⟩

end RtosKernel.RtThread.Slab
