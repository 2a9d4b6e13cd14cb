import RtosKernel.RtThread.SlabInvariant

/-! # What the calls of the slab allocator keep -/
namespace RtosKernel.RtThread.Slab
open Lib.Word Lib.PageRuns RtThread.Def Function
open List (length_cons map_cons mem_cons mem_cons_of_mem mem_cons_self nodup_cons perm_middle)

variable {slab slab' : RtSlab} {skip : Option Nat} {z p : Nat} {l : Live}
variable {n size zi ptr : Nat} {zs : List Nat} {live : List Live}

/-! ## Zones come and go -/

/-- A zone without header: it is in no list, and nothing of it is live. -/
structure Blank (slab : RtSlab) (z : Nat) : Prop where
  zones : z ∈ slab.zones
  free : z ∉ slab.zoneFree
  array : ∀ zi, z ∉ slab.zoneArray zi
  live : ∀ l ∈ slab.live, l.zone ≠ some z

theorem Blank.chunks (h : Blank slab z) : chunks slab.live z = [] :=
  List.eq_nil_iff_forall_not_mem.mpr fun _ hp =>
    have ⟨l, hl, hz, _⟩ := mem_chunks.mp hp
    h.live l hl hz

theorem Inv.takeFree {zoneFree : List Nat} (h : Inv slab none) (hlist : slab.zoneFree = z :: zoneFree) :
    Inv { slab with zoneFree, zoneFreeCnt := slab.zoneFreeCnt - 1 } (some z) ∧
      Blank { slab with zoneFree, zoneFreeCnt := slab.zoneFreeCnt - 1 } z := by
  have hz : z ∈ slab.zoneFree := hlist ▸ mem_cons_self
  have hsub : ∀ z' ∈ zoneFree, z' ∈ slab.zoneFree := fun z' hz' => hlist ▸ mem_cons_of_mem _ hz'
  have hnodup := h.nodup.1
  rw [hlist, nodup_cons] at hnodup
  have hcnt := h.cnt
  rw [hlist, length_cons] at hcnt
  refine ⟨⟨h.geometry.congr rfl rfl rfl rfl, h.pages, h.runs, ?_, fun z' hz' => h.idle z' (hsub z' hz'), h.array,
    ⟨hnodup.2, h.nodup.2⟩, h.usage, h.large, ?_, ?_, h.used⟩, (h.idle z hz).1, hnodup.1, (h.idle z hz).2, ?_⟩
  · intro z' hz' hfree hskip
    refine h.zoneOk hz' ?_
    rw [hlist]
    exact fun hmem => (mem_cons.mp hmem).elim (fun he => hskip (congrArg some he.symm)) hfree
  · exact fun l hl z' hzone => ⟨(h.chunk l hl z' hzone).1, fun hmem => (h.chunk l hl z' hzone).2 (hsub z' hmem)⟩
  · dsimp only
    omega
  · exact fun l hl hzone => (h.chunk l hl z hzone).2 hz

theorem Inv.giveFree (h : Inv slab (some z)) (hblank : Blank slab z) {v : Zone}
    (hroom : slab.zoneFreeCnt < ZONE_RELEASE_THRESH) :
    Inv { slab with
      zone := update slab.zone z v, zoneFree := z :: slab.zoneFree, zoneFreeCnt := slab.zoneFreeCnt + 1 }
      none := by
  refine ⟨h.geometry.congr rfl rfl rfl rfl, h.pages, h.runs, ?_, ?_, h.array,
    ⟨nodup_cons.mpr ⟨hblank.free, h.nodup.1⟩, h.nodup.2⟩, h.usage, h.large, ?_, ⟨?_, hroom⟩, h.used⟩
  · intro z' hz' hfree _
    obtain ⟨hne, hfree⟩ := not_or.mp (mt mem_cons.mpr hfree)
    dsimp only
    rw [update_of_ne hne]
    exact h.zone z' hz' hfree fun he => hne (Option.some.inj he).symm
  · exact List.forall_mem_cons.mpr ⟨⟨hblank.zones, hblank.array⟩, h.idle⟩
  · refine fun l hl z' hzone => ⟨(h.chunk l hl z' hzone).1, fun hmem => ?_⟩
    rcases mem_cons.mp hmem with rfl | hmem
    · exact hblank.live l hl hzone
    · exact (h.chunk l hl z' hzone).2 hmem
  · rw [length_cons, ← h.cnt.1]

theorem Inv.taken {page : Nat} {pageList : List Run} (h : Inv slab skip)
    (heq : pageAlloc n slab.pageList = some (page, pageList)) :
    FreeRuns pageList ∧ (∀ p, owners slab.pageList p = (Run.mk page n).at p + owners pageList p) ∧
      (∀ z ∈ slab.zones, ∀ p, page ≤ p ∧ p < page + n → ¬ (z ≤ p ∧ p < z + slab.zonePageCnt)) ∧
        ∀ l ∈ slab.live, l.zone = none →
          ¬ (page ≤ l.ptr / RT_MM_PAGE_SIZE ∧ l.ptr / RT_MM_PAGE_SIZE < page + n) := by
  obtain ⟨hfree, hcount, -⟩ := pageAlloc_spec h.runs heq
  refine ⟨hfree, hcount, fun z hz p hp hzone => ?_, fun l hl hzone hp => ?_⟩
  · have := zoneRuns_pos hz hzone
    have := (Run.at_pos (r := ⟨page, n⟩)).mpr hp
    have := h.pages_le p
    have := hcount p
    omega
  · obtain ⟨hmod, m, hm, hbytes, -⟩ := h.large l hl hzone
    have := h.blocks_pos hl hzone (p := l.ptr / RT_MM_PAGE_SIZE) (by simp only [RT_MM_PAGE_SIZE] at *; omega)
    have := (Run.at_pos (r := ⟨page, n⟩)).mpr hp
    have := h.pages_le (l.ptr / RT_MM_PAGE_SIZE)
    have := hcount (l.ptr / RT_MM_PAGE_SIZE)
    omega

theorem rtSlabPageAlloc_cases (slab : RtSlab) (n : Nat) : rtSlabPageAlloc slab n = (slab, none) ∨
    ∃ page pageList, pageAlloc n slab.pageList = some (page, pageList) ∧
      rtSlabPageAlloc slab n = ({ slab with pageList }, some page) := by
  unfold rtSlabPageAlloc
  split
  · exact .inl rfl
  split
  · rename_i page pageList hgo
    exact .inr ⟨page, pageList, hgo, rfl⟩
  · exact .inl rfl

theorem setUsage_in {memusage usage : Nat → Memusage} {cnt : Nat} (h : z ≤ p ∧ p < z + cnt) :
    setUsage memusage z cnt usage p = usage (p - z) := if_pos h

theorem setUsage_out {memusage usage : Nat → Memusage} {cnt : Nat} (h : ¬ (z ≤ p ∧ p < z + cnt)) :
    setUsage memusage z cnt usage p = memusage p := if_neg h

theorem Inv.takePages {pageList : List Run} (h : Inv slab none)
    (heq : pageAlloc slab.zonePageCnt slab.pageList = some (z, pageList)) :
    Inv { slab with
      pageList, memusage := setUsage slab.memusage z slab.zonePageCnt fun off => ⟨.small, off⟩
      zones := z :: slab.zones } (some z) ∧
    Blank { slab with
      pageList, memusage := setUsage slab.memusage z slab.zonePageCnt fun off => ⟨.small, off⟩
      zones := z :: slab.zones } z := by
  obtain ⟨hfree, hcount, hzones, hblocks⟩ := h.taken heq
  have hpos := h.geometry.bounds.2.2.2.2.2
  have hnew : z ∉ slab.zones := fun hz => hzones z hz z (by omega) (by omega)
  refine ⟨⟨h.geometry.congr rfl rfl rfl rfl, fun p => ?_, hfree, ?_, ?_, ?_, h.nodup, ?_, ?_, ?_, h.cnt, h.used⟩,
    mem_cons_self, fun hz => hnew (h.idle z hz).1, fun zi hz => hnew (h.array zi z hz), ?_⟩
  · change owners pageList p + owners slab.array.toList p + owners (blocks slab.live) p +
      owners (zoneRuns slab.zonePageCnt (z :: slab.zones)) p = if p < npages slab then 1 else 0
    have := h.pages p
    rw [hcount p] at this
    rw [zoneRuns, map_cons, owners_cons, ← zoneRuns]
    omega
  · intro z' hz' hfree hskip
    rcases mem_cons.mp hz' with rfl | hz'
    · exact absurd rfl hskip
    · exact h.zoneOk hz' hfree
  · exact fun z' hz' => ⟨mem_cons_of_mem _ (h.idle z' hz').1, (h.idle z' hz').2⟩
  · exact fun zi z' hz' => mem_cons_of_mem _ (h.array zi z' hz')
  · intro z' hz' off hoff
    change off < slab.zonePageCnt at hoff
    rcases mem_cons.mp hz' with rfl | hz'
    · exact (setUsage_in ⟨Nat.le_add_right .., by omega⟩).trans (by rw [Nat.add_sub_cancel_left])
    · exact (setUsage_out fun hp => hzones z' hz' (z' + off) hp (by omega)).trans (h.usage z' hz' off hoff)
  · intro l hl hzone
    obtain ⟨hmod, n, hn, hbytes, hu⟩ := h.large l hl hzone
    exact ⟨hmod, n, hn, hbytes, (setUsage_out (hblocks l hl hzone)).trans hu⟩
  · exact fun l hl z' hzone => ⟨mem_cons_of_mem _ (h.chunk l hl z' hzone).1, (h.chunk l hl z' hzone).2⟩
  · exact fun l hl hzone => hnew (h.chunk l hl z hzone).1

theorem rtSlabPageFree_spec (hruns : FreeRuns slab.pageList) (hn : 0 < n)
    (hapart : ∀ q, (Run.mk p n).at q + owners slab.pageList q ≤ 1) :
    ∃ pageList, rtSlabPageFree slab (p * RT_MM_PAGE_SIZE) n = .ok { slab with pageList } ∧ FreeRuns pageList ∧
      ∀ q, owners pageList q = (Run.mk p n).at q + owners slab.pageList q := by
  obtain ⟨pageList, hgo, hfree, hcount, -⟩ := pageFree_spec hruns hn hapart
  refine ⟨pageList, ?_, hfree, hcount⟩
  rw [rtSlabPageFree, if_neg (by simp only [RT_MM_PAGE_SIZE]; omega), Nat.mul_div_cancel _ (by decide), hgo]
  rfl

theorem Inv.givePages (h : Inv slab (some z)) (hblank : Blank slab z) {v : Zone} :
    ∃ slab', rtSlabPageFree { slab with
        zone := update slab.zone z v
        memusage := setUsage slab.memusage z slab.zonePageCnt fun _ => ⟨.free, 0⟩
        zones := slab.zones.erase z } (z * RT_MM_PAGE_SIZE) (slab.zoneSize / RT_MM_PAGE_SIZE) = .ok slab' ∧
      slab'.live = slab.live ∧ slab'.asked = slab.asked ∧ Inv slab' none := by
  have hb := h.geometry.bounds
  have hperm := List.perm_cons_erase hblank.zones
  have hcount : ∀ p, owners (zoneRuns slab.zonePageCnt slab.zones) p =
      (Run.mk z slab.zonePageCnt).at p + owners (zoneRuns slab.zonePageCnt (slab.zones.erase z)) p := fun p => by
    rw [zoneRuns, owners_perm (hperm.map _), map_cons, owners_cons, zoneRuns]
  have hne : ∀ z' ∈ slab.zones.erase z, z' ∈ slab.zones ∧ z' ≠ z := fun z' hz' =>
    ⟨List.mem_of_mem_erase hz', fun he => (nodup_cons.mp (hperm.nodup_iff.mp h.zones_nodup)).1 (he ▸ hz')⟩
  have hmem : ∀ z' ∈ slab.zones, z' ≠ z → z' ∈ slab.zones.erase z := fun z' hz' hne =>
    (List.mem_erase_of_ne hne).mpr hz'
  rw [← h.geometry.zonePageCnt]
  obtain ⟨pageList, hgo, hfree, hpages⟩ := @rtSlabPageFree_spec
    { slab with
      zone := update slab.zone z v
      memusage := setUsage slab.memusage z slab.zonePageCnt fun _ => ⟨.free, 0⟩
      zones := slab.zones.erase z } z slab.zonePageCnt h.runs hb.2.2.2.2.2 fun q => by
      have := h.pages_le q
      have := hcount q
      change _ + owners slab.pageList q ≤ 1
      omega
  refine ⟨{ slab with
      zone := update slab.zone z v
      memusage := setUsage slab.memusage z slab.zonePageCnt fun _ => ⟨.free, 0⟩
      zones := slab.zones.erase z, pageList }, hgo, rfl, rfl, h.geometry.congr rfl rfl rfl rfl, fun p => ?_, hfree, ?_,
    ?_, ?_, h.nodup, ?_, ?_, ?_, h.cnt, h.used⟩
  · change owners pageList p + owners slab.array.toList p + owners (blocks slab.live) p +
      owners (zoneRuns slab.zonePageCnt (slab.zones.erase z)) p = if p < npages slab then 1 else 0
    have := h.pages p
    have := hcount p
    have hback : owners pageList p = _ + owners slab.pageList p := hpages p
    omega
  · intro z' hz' hfree' _
    obtain ⟨hz', hne'⟩ := hne z' hz'
    dsimp only
    rw [update_of_ne hne']
    exact h.zone z' hz' hfree' fun he => hne' (Option.some.inj he).symm
  · refine fun z' hz' => ⟨hmem z' (h.idle z' hz').1 ?_, (h.idle z' hz').2⟩
    rintro rfl
    exact hblank.free hz'
  · refine fun zi z' hz' => hmem z' (h.array zi z' hz') ?_
    rintro rfl
    exact hblank.array zi hz'
  · intro z' hz' off hoff
    change off < slab.zonePageCnt at hoff
    obtain ⟨hz', hne'⟩ := hne z' hz'
    dsimp only
    rw [setUsage_out fun hp => hne' (h.zone_eq hz' hblank.zones ⟨Nat.le_add_right .., by omega⟩ hp)]
    exact h.usage z' hz' off hoff
  · intro l hl hzone
    obtain ⟨hmod, n, hn, hbytes, hu⟩ := h.large l hl hzone
    refine ⟨hmod, n, hn, hbytes, ?_⟩
    dsimp only
    rw [setUsage_out fun hp => ?_, hu]
    have := h.blocks_pos hl hzone (p := l.ptr / RT_MM_PAGE_SIZE) (by simp only [RT_MM_PAGE_SIZE] at *; omega)
    have := zoneRuns_pos hblank.zones hp
    have := h.pages_le (l.ptr / RT_MM_PAGE_SIZE)
    omega
  · intro l hl z' hzone
    refine ⟨hmem z' (h.chunk l hl z' hzone).1 ?_, (h.chunk l hl z' hzone).2⟩
    rintro rfl
    exact hblank.live l hl hzone

/-! ## Allocation -/

/-- What an allocation leaves: at most one more live pointer, with room for the size. -/
structure Alloced (slab : RtSlab) (size : Nat) (r : RtSlab × Option Nat) : Prop where
  inv : Inv r.1 none
  asked : r.1.asked = slab.asked
  none : r.2 = none → r.1.live = slab.live
  some : ∀ ptr, r.2 = some ptr → ∃ l : Live, r.1.live = l :: slab.live ∧ l.ptr = ptr ∧ size ≤ l.bytes

theorem Inv.alloced_none (h : Inv slab none) (size : Nat) : Alloced slab size (slab, none) :=
  ⟨h, rfl, fun _ => rfl, fun _ hr => by cases hr⟩

theorem add32_mod (a b : Nat) : add32 (a % 2 ^ 32) b = (b + a) % 2 ^ 32 := by
  unfold add32
  omega

theorem rtAlign_page (hsize : size < 2 ^ 32) (hpages : rtAlign size RT_MM_PAGE_SIZE / RT_MM_PAGE_SIZE ≠ 0) :
    ∃ n, 0 < n ∧ n < 2 ^ 20 ∧ rtAlign size RT_MM_PAGE_SIZE = n * RT_MM_PAGE_SIZE ∧ size ≤ n * RT_MM_PAGE_SIZE := by
  have hpow : RT_MM_PAGE_SIZE = 2 ^ 12 := rfl
  have heq := @rtAlign_eq size 12 (by decide)
  have hlt := @rtAlign_lt size 12 (by decide)
  rw [← hpow] at heq hlt
  refine ⟨rtAlign size RT_MM_PAGE_SIZE / RT_MM_PAGE_SIZE, Nat.pos_of_ne_zero hpages, ?_⟩
  simp only [RT_MM_PAGE_SIZE, add32] at *
  omega

theorem Inv.allocLarge (h : Inv slab none) (hsize : size < 2 ^ 32) : Alloced slab size (allocLarge slab size) := by
  unfold Slab.allocLarge
  dsimp only
  by_cases hpages : rtAlign size RT_MM_PAGE_SIZE / RT_MM_PAGE_SIZE = 0
  · rw [rtSlabPageAlloc, if_pos hpages]
    exact h.alloced_none size
  obtain ⟨n, hpos, hlt, halign, hle⟩ := rtAlign_page hsize hpages
  have hdiv : n * RT_MM_PAGE_SIZE / RT_MM_PAGE_SIZE = n := Nat.mul_div_cancel n (by decide)
  have hmod : n % 2 ^ 30 = n := Nat.mod_eq_of_lt (by omega)
  rw [halign, hdiv, hmod]
  rcases rtSlabPageAlloc_cases slab n with he | ⟨page, pageList, hgo, he⟩
  · rw [he]
    exact h.alloced_none size
  · rw [he]
    obtain ⟨hfree, hcount, hzones, hblocks⟩ := h.taken hgo
    have hpage : page * RT_MM_PAGE_SIZE / RT_MM_PAGE_SIZE = page := Nat.mul_div_cancel page (by decide)
    refine ⟨⟨h.geometry.congr rfl rfl rfl rfl, fun p => ?_, hfree, ?_, h.idle, h.array, h.nodup, ?_, ?_, ?_, h.cnt, ?_⟩,
      rfl, fun hr => (by cases hr), fun ptr hr => ?_⟩
    · change owners pageList p + owners slab.array.toList p + owners (blocks (⟨_, _, none⟩ :: slab.live)) p +
        owners (zoneRuns slab.zonePageCnt slab.zones) p = if p < npages slab then 1 else 0
      have := h.pages p
      rw [hcount p] at this
      rw [blocks_cons rfl, owners_cons, hpage, hdiv]
      omega
    · intro z hz hfree' _
      refine (h.zoneOk hz hfree').congr ?_ (fun l hl hzone => ?_) fun zi => Iff.rfl
      · exact .of_eq (chunks_cons_ne nofun)
      · rcases mem_cons.mp hl with rfl | hl
        · cases hzone
        · exact hl
    · intro z hz off hoff
      change off < slab.zonePageCnt at hoff
      exact (update_of_ne (fun he => hzones z hz page (by omega) (by omega)) ..).trans (h.usage z hz off hoff)
    · intro l hl hzone
      rcases mem_cons.mp hl with rfl | hl
      · refine ⟨Nat.mul_mod_left .., n, hpos, rfl, ?_⟩
        exact (congrArg _ hpage).trans (update_self ..)
      · obtain ⟨hmod, m, hm, hbytes, hu⟩ := h.large l hl hzone
        refine ⟨hmod, m, hm, hbytes, (update_of_ne (fun he => ?_) ..).trans hu⟩
        exact hblocks l hl hzone (by omega)
    · intro l hl z hzone
      rcases mem_cons.mp hl with rfl | hl
      · cases hzone
      · exact h.chunk l hl z hzone
    · change add32 slab.used (n * RT_MM_PAGE_SIZE) = _
      rw [h.used, add32_mod]
      rfl
    · cases hr
      exact ⟨_, rfl, rfl, hle⟩

theorem Inv.relist (h : Inv slab skip) (hzs : zs.Nodup)
    (hmem : ∀ z' ≠ z, z' ∈ zs ↔ z' ∈ slab.zoneArray zi) (zi' : Nat) :
    (update slab.zoneArray zi zs zi').Nodup ∧
      ∀ z' ≠ z, z' ∈ update slab.zoneArray zi zs zi' ↔ z' ∈ slab.zoneArray zi' := by
  by_cases heq : zi' = zi
  · subst heq
    rw [update_self]
    exact ⟨hzs, hmem⟩
  · rw [update_of_ne heq]
    exact ⟨h.nodup.2 zi', fun _ _ => Iff.rfl⟩

theorem mem_relist {zoneArray : Nat → List Nat} (hmem : z ∈ zs ↔ 0 < n)
    (hother : ∀ zi' ≠ zi, z ∉ zoneArray zi') (zi' : Nat) : z ∈ update zoneArray zi zs zi' ↔ zi' = zi ∧ 0 < n := by
  by_cases heq : zi' = zi
  · subst heq
    rw [update_self, hmem]
    exact ⟨fun hn => ⟨rfl, hn⟩, fun hn => hn.2⟩
  · rw [update_of_ne heq]
    exact ⟨fun hz => absurd hz (hother zi' heq), fun hn => absurd hn.1 heq⟩

theorem Inv.allocZone (h : Inv slab none) (hlist : slab.zoneArray zi = z :: zs)
    (hsize : size = chunkFor zi) : ∃ r, allocZone slab zi size z = .ok r ∧ Alloced slab size r := by
  have hhead : z ∈ slab.zoneArray zi := hlist ▸ mem_cons_self
  have hz : z ∈ slab.zones := h.array zi z hhead
  have hfree : z ∉ slab.zoneFree := fun hmem => (h.idle z hmem).2 zi hhead
  have hok := h.zoneOk hz hfree
  obtain ⟨hzi, hnfree⟩ := (hok.array zi).mp hhead
  have hchunk : (slab.zone z).chunksize = size := by rw [hok.chunk, hsize, hzi]
  have hnodup := h.nodup.2 zi
  rw [hlist, nodup_cons] at hnodup
  have hslots := hok.slots
  -- The list of the index, without the zone where it has no more to give.
  have hlisted : ∀ zs', zs' = (if (slab.zone z).nfree - 1 = 0 then (slab.zoneArray zi).tail else slab.zoneArray zi) →
      zs'.Nodup ∧ (∀ z' ≠ z, z' ∈ zs' ↔ z' ∈ slab.zoneArray zi) ∧ (z ∈ zs' ↔ 0 < (slab.zone z).nfree - 1) := by
    rintro zs' rfl
    rw [hlist]
    split
    · refine ⟨hnodup.2, fun z' hne => ?_, fun hmem => absurd hmem hnodup.1, fun hpos => ?_⟩
      · rw [List.tail_cons, mem_cons, or_iff_right hne]
      · omega
    · rename_i hmore
      exact ⟨nodup_cons.mpr hnodup, fun _ _ => Iff.rfl, fun _ => Nat.pos_of_ne_zero hmore, fun _ => mem_cons_self⟩
  obtain ⟨hzs, hother, hself⟩ := hlisted _ rfl
  -- What both ways to find a chunk have in common.
  have hdone : ∀ (uindex ptr max : Nat) (freechunk : List Nat), uindex < (slab.zone z).nmax →
      (slab.zone z).nfree - 1 = (slab.zone z).nmax - 1 - uindex + freechunk.length →
      (ptr :: (chunks slab.live z ++ freechunk)).Perm
        ((List.range (uindex + 1)).map fun i => (slab.zone z).baseptr + i * (slab.zone z).chunksize) →
      Inv { slab with
        zone := update slab.zone z
          { slab.zone z with nfree := (slab.zone z).nfree - 1, uindex, freechunk }
        zoneArray := update slab.zoneArray zi
          (if (slab.zone z).nfree - 1 = 0 then (slab.zoneArray zi).tail else slab.zoneArray zi)
        live := ⟨ptr, (slab.zone z).chunksize, some z⟩ :: slab.live
        used := add32 slab.used (slab.zone z).chunksize, max } none := by
    intro uindex ptr max freechunk hu hcount hperm
    refine (h.weaken _).rezone hz hfree ?_ (h.relist hzs hother) ?_ ?_ ?_ ?_
    · refine { hok with
        uindex := hu, nfree := hcount, slots := ?_, bytes := fun l hl hzone => ?_, array := ?_ }
      · rw [chunks_cons_self rfl]
        exact hperm
      · rcases mem_cons.mp hl with rfl | hl
        · rfl
        · exact hok.bytes l hl hzone
      · rw [← hzi]
        exact mem_relist hself fun zi' hne hmem => hne (((hok.array zi').mp hmem).1.trans hzi.symm)
    · intro l hl hzone
      rcases mem_cons.mp hl with rfl | hl
      · exact absurd rfl hzone
      · exact hl
    · exact fun z' hne => .of_eq (chunks_cons_ne fun he => hne (Option.some.inj he).symm)
    · exact .of_eq (blocks_cons_chunk rfl)
    · rw [h.used, add32_mod]
      rfl
  have hroom : ∀ ptr', ∃ l : Live, (⟨ptr', (slab.zone z).chunksize, some z⟩ :: slab.live) = l :: slab.live ∧
      l.ptr = ptr' ∧ size ≤ l.bytes := fun _ => ⟨_, rfl, rfl, Nat.le_of_eq hchunk.symm⟩
  have hcount := hok.nfree
  unfold Slab.allocZone
  rw [if_neg (Nat.ne_of_gt hnfree)]
  dsimp only
  split
  · have hu := hok.uindex
    refine ⟨_, rfl, hdone _ _ _ _ ?_ ?_ ?_, rfl, fun hr => (by cases hr), fun ptr hr => ?_⟩
    · omega
    · omega
    · rw [List.range_succ, List.map_append, List.map_singleton, hchunk]
      rw [hchunk] at hslots
      exact (hslots.cons _).trans (List.perm_append_singleton _ _).symm
    · cases hr
      exact hroom _
  · cases hlist : (slab.zone z).freechunk with
    | nil =>
      rw [hlist, List.length_nil] at hcount
      omega
    | cons chunk freechunk =>
      rw [hlist, length_cons] at hcount
      rw [hlist] at hslots
      refine ⟨_, rfl, hdone _ _ _ _ hok.uindex ?_ ?_, rfl, fun hr => (by cases hr), fun ptr hr => ?_⟩
      · omega
      · exact perm_middle.symm.trans hslots
      · cases hr
        exact hroom _

theorem Inv.takeZone (h : Inv slab none) :
    takeZone slab = (slab, none) ∨ ∃ slab' z, takeZone slab = (slab', some z) ∧ Inv slab' (some z) ∧ Blank slab' z ∧
      slab'.live = slab.live ∧ slab'.asked = slab.asked ∧ slab'.zoneSize = slab.zoneSize := by
  unfold Slab.takeZone
  split
  · rename_i z zoneFree hlist
    obtain ⟨hinv, hblank⟩ := h.takeFree hlist
    exact .inr ⟨_, z, rfl, hinv, hblank, rfl, rfl, rfl⟩
  · rw [← h.geometry.zonePageCnt]
    rcases rtSlabPageAlloc_cases slab slab.zonePageCnt with he | ⟨z, pageList, hgo, he⟩
    · rw [he]
      exact .inl rfl
    · obtain ⟨hinv, hblank⟩ := h.takePages hgo
      rw [he]
      exact .inr ⟨_, z, rfl, hinv, hblank, rfl, rfl, rfl⟩

theorem Inv.allocNewZone (h : Inv slab none) (hsize : size = chunkFor zi) (hpos : 0 < size)
    (hlimit : size ≤ slab.zoneLimit) : Alloced slab size (allocNewZone slab zi size) := by
  unfold Slab.allocNewZone
  rcases h.takeZone with hnone | ⟨slab', z, hsome, hinv, hblank, hlive, hasked, hzoneSize⟩
  · rw [hnone]
    exact h.alloced_none size
  have hb := h.geometry.bounds
  obtain ⟨hoff, hoff'⟩ := chunkOffset_bounds hpos
  have hfit : chunkOffset size + 2 * size ≤ slab'.zoneSize := by
    simp only [sizeofZone] at hoff'
    omega
  have htwo : 2 ≤ (slab'.zoneSize - chunkOffset size) / size :=
    (Nat.le_div_iff_mul_le hpos).mpr (Nat.le_sub_of_add_le' hfit)
  have hdiv := Nat.div_mul_le_self (slab'.zoneSize - chunkOffset size) size
  have hnodup : (z :: slab'.zoneArray zi).Nodup := nodup_cons.mpr ⟨hblank.array zi, hinv.nodup.2 zi⟩
  rw [hsome]
  refine ⟨?_, hasked, fun hr => (by cases hr), fun ptr hr => ?_⟩
  · refine hinv.rezone hblank.zones hblank.free ?_ (hinv.relist hnodup fun z' hne => ?_) ?_ ?_ ?_ ?_
    · refine ⟨rfl, hsize, hpos, Nat.add_le_add_left hoff _, ?_, Nat.lt_of_lt_of_le Nat.two_pos htwo, htwo, rfl, ?_, ?_,
        ?_⟩
      · dsimp only
        omega
      · rw [chunks_cons_self rfl]
        change (_ :: (chunks slab'.live z ++ [])).Perm _
        rw [hblank.chunks]
        exact .of_eq (by simp)
      · intro l hl hzone
        rcases mem_cons.mp hl with rfl | hl
        · rfl
        · exact absurd hzone (hblank.live l hl)
      · exact mem_relist ⟨fun _ => Nat.sub_pos_of_lt htwo, fun _ => mem_cons_self⟩ fun zi' _ => hblank.array zi'
    · rw [mem_cons, or_iff_right hne]
    · intro l hl hzone
      rcases mem_cons.mp hl with rfl | hl
      · exact absurd rfl hzone
      · exact hl
    · exact fun z' hne => .of_eq (chunks_cons_ne fun he => hne (Option.some.inj he).symm)
    · exact .of_eq (blocks_cons_chunk rfl)
    · change add32 slab'.used size = _
      rw [hinv.used, add32_mod]
      rfl
  · cases hr
    exact ⟨_, congrArg _ hlive, rfl, Nat.le_refl _⟩

theorem Inv.rtSlabAlloc (h : Inv slab none) (hsize : size < 2 ^ 32) :
    ∃ r, rtSlabAlloc slab size = .ok r ∧ Alloced slab size r := by
  unfold Slab.rtSlabAlloc
  split
  · exact ⟨_, rfl, h.alloced_none size⟩
  rename_i hne
  split
  · exact ⟨_, rfl, h.allocLarge hsize⟩
  have hb := h.geometry.bounds
  obtain ⟨hindex, hchunk, hle, hhalf, hmax⟩ := zoneindex_spec (Nat.pos_of_ne_zero hne) (by omega : size < 16384)
  have hfit : (zoneindex size).2 ≤ slab.zoneLimit := by
    have := h.geometry.zoneLimit
    rcases h.geometry.zoneSize with hs | hs | hs <;> rw [hs] at this <;> simp only [ZALLOC_ZONE_LIMIT] at this <;> omega
  dsimp only
  rw [if_neg (Nat.not_le.mpr hindex)]
  have hmono : ∀ r, Alloced slab (zoneindex size).2 r → Alloced slab size r := fun r hr =>
    ⟨hr.inv, hr.asked, hr.none, fun ptr hptr => by
      obtain ⟨l, hl, hp, hb⟩ := hr.some ptr hptr
      exact ⟨l, hl, hp, Nat.le_trans hle hb⟩⟩
  split
  · rename_i z zs hlist
    obtain ⟨r, hgo, hr⟩ := h.allocZone hlist hchunk
    exact ⟨r, hgo, hmono r hr⟩
  · exact ⟨_, rfl, hmono _ (h.allocNewZone hchunk (by omega) hfit)⟩

/-! ## Release -/

structure Freed (slab : RtSlab) (ptr : Nat) (slab' : RtSlab) : Prop where
  inv : Inv slab' none
  asked : slab'.asked = slab.asked
  live : slab'.live = slab.live.eraseP fun l => l.ptr = ptr

theorem exists_live (h : ptr ∈ live.map Live.ptr) :
    ∃ l : Live, l.ptr = ptr ∧ live.Perm (l :: live.eraseP fun l => l.ptr = ptr) := by
  obtain ⟨a, ha, hp⟩ := List.mem_map.mp h
  obtain ⟨l, s, t, -, hl, hlive, herase⟩ :=
    List.exists_of_eraseP ha (p := fun l => decide (l.ptr = ptr)) (by simpa using hp)
  refine ⟨l, by simpa using hl, ?_⟩
  rw [herase, hlive]
  exact perm_middle

theorem sub32_mod (a b : Nat) : sub32 ((b + a) % 2 ^ 32) b = a % 2 ^ 32 := by
  unfold sub32
  omega

theorem sum_erase {live' : List Live} (h : live.Perm (l :: live')) :
    (live.map Live.bytes).sum = l.bytes + (live'.map Live.bytes).sum := by
  rw [(h.map Live.bytes).sum_nat, map_cons, List.sum_cons]

theorem Inv.freeLarge (h : Inv slab none) (hperm : slab.live.Perm (l :: live))
    (hzone : l.zone = none) (hn : 0 < n) (hmod : l.ptr % RT_MM_PAGE_SIZE = 0) (hbytes : l.bytes = n * RT_MM_PAGE_SIZE)
    (v : Memusage) :
    ∃ slab', rtSlabPageFree { slab with
        live, memusage := update slab.memusage (l.ptr / RT_MM_PAGE_SIZE) v
        used := sub32 slab.used (n * RT_MM_PAGE_SIZE) } l.ptr n = .ok slab' ∧
      Inv slab' none ∧ slab'.asked = slab.asked ∧ slab'.live = live := by
  have hdiv : n * RT_MM_PAGE_SIZE / RT_MM_PAGE_SIZE = n := Nat.mul_div_cancel n (by decide)
  have hptr : l.ptr = l.ptr / RT_MM_PAGE_SIZE * RT_MM_PAGE_SIZE :=
    (Nat.div_mul_cancel (Nat.dvd_of_mod_eq_zero hmod)).symm
  have hblocks : ∀ p, owners (blocks slab.live) p =
      (Run.mk (l.ptr / RT_MM_PAGE_SIZE) n).at p + owners (blocks live) p := fun p => by
    rw [blocks, owners_perm (hperm.filterMap _), ← blocks, blocks_cons hzone, owners_cons, hbytes, hdiv]
  have hhas : (Run.mk (l.ptr / RT_MM_PAGE_SIZE) n).at (l.ptr / RT_MM_PAGE_SIZE) = 1 :=
    if_pos ⟨Nat.le_refl _, Nat.lt_add_of_pos_right hn⟩
  have hpage := h.pages_le (l.ptr / RT_MM_PAGE_SIZE)
  rw [hblocks, hhas] at hpage
  have hmem : ∀ l' ∈ live, l' ∈ slab.live := fun l' hl' => hperm.mem_iff.mpr (mem_cons_of_mem _ hl')
  obtain ⟨pageList, hgo, hfree, hcount⟩ := @rtSlabPageFree_spec { slab with
      live, memusage := update slab.memusage (l.ptr / RT_MM_PAGE_SIZE) v
      used := sub32 slab.used (n * RT_MM_PAGE_SIZE) } (l.ptr / RT_MM_PAGE_SIZE) n h.runs hn fun q => by
    have := h.pages_le q
    have := hblocks q
    change _ + owners slab.pageList q ≤ 1
    omega
  rw [← hptr] at hgo
  refine ⟨{ slab with
      live, memusage := update slab.memusage (l.ptr / RT_MM_PAGE_SIZE) v
      used := sub32 slab.used (n * RT_MM_PAGE_SIZE), pageList }, hgo, ⟨h.geometry.congr rfl rfl rfl rfl, fun p => ?_,
    hfree, ?_, h.idle, h.array, h.nodup, ?_, ?_, fun l' hl' => h.chunk l' (hmem l' hl'), h.cnt, ?_⟩, rfl, rfl⟩
  · change owners pageList p + owners slab.array.toList p + owners (blocks live) p +
      owners (zoneRuns slab.zonePageCnt slab.zones) p = if p < npages slab then 1 else 0
    have := h.pages p
    have := hblocks p
    have hback : owners pageList p = _ + owners slab.pageList p := hcount p
    omega
  · intro z hz hfree' _
    refine (h.zoneOk hz hfree').congr ?_ (fun l' hl' _ => hmem l' hl') fun zi => Iff.rfl
    exact ((chunks_perm hperm z).trans (.of_eq (chunks_cons_ne (by simp [hzone])))).symm
  · intro z hz off hoff
    change off < slab.zonePageCnt at hoff
    refine (update_of_ne (fun he => ?_) ..).trans (h.usage z hz off hoff)
    have := @zoneRuns_pos slab z (l.ptr / RT_MM_PAGE_SIZE) hz ⟨by omega, by omega⟩
    omega
  · intro l' hl' hzone'
    obtain ⟨hmod', m, hm, hbytes', hu⟩ := h.large l' (hmem l' hl') hzone'
    refine ⟨hmod', m, hm, hbytes', (update_of_ne (fun he => ?_) ..).trans hu⟩
    have hmem' : (⟨l'.ptr / RT_MM_PAGE_SIZE, l'.bytes / RT_MM_PAGE_SIZE⟩ : Run) ∈ blocks live :=
      List.mem_filterMap.mpr ⟨l', hl', by rw [Live.run, if_pos hzone']⟩
    have := owners_pos hmem' (p := l.ptr / RT_MM_PAGE_SIZE)
      ⟨Nat.le_of_eq he, by rw [hbytes', Nat.mul_div_cancel m (by decide), he]; exact Nat.lt_add_of_pos_right hm⟩
    omega
  · rw [h.used, sum_erase hperm, hbytes, sub32_mod]

theorem Inv.giveChunk (h : Inv slab none) (hperm : slab.live.Perm (l :: live))
    (hzone : l.zone = some z) :
    Inv { slab with
      live, used := sub32 slab.used (slab.zone z).chunksize
      zoneArray := update slab.zoneArray (slab.zone z).zoneindex
        (if (slab.zone z).nfree = 0 then z :: slab.zoneArray (slab.zone z).zoneindex
        else slab.zoneArray (slab.zone z).zoneindex)
      zone := update slab.zone z
        { slab.zone z with freechunk := l.ptr :: (slab.zone z).freechunk, nfree := (slab.zone z).nfree + 1 } }
      none := by
  have hl : l ∈ slab.live := hperm.mem_iff.mpr mem_cons_self
  have hmem : ∀ l' ∈ live, l' ∈ slab.live := fun l' hl' => hperm.mem_iff.mpr (mem_cons_of_mem _ hl')
  obtain ⟨hz, hfree⟩ := h.chunk l hl z hzone
  have hok := h.zoneOk hz hfree
  have hlisted : ∀ zs, zs = (if (slab.zone z).nfree = 0 then z :: slab.zoneArray (slab.zone z).zoneindex
      else slab.zoneArray (slab.zone z).zoneindex) →
      zs.Nodup ∧ (∀ z' ≠ z, z' ∈ zs ↔ z' ∈ slab.zoneArray (slab.zone z).zoneindex) ∧
        (z ∈ zs ↔ 0 < (slab.zone z).nfree + 1) := by
    rintro zs rfl
    split
    · refine ⟨nodup_cons.mpr ⟨fun hin => ?_, h.nodup.2 _⟩, fun z' hne => ?_, fun _ => Nat.succ_pos _,
        fun _ => mem_cons_self⟩
      · have := ((hok.array _).mp hin).2
        omega
      · rw [mem_cons, or_iff_right hne]
    · rename_i hpos
      exact ⟨h.nodup.2 _, fun _ _ => Iff.rfl, fun _ => Nat.succ_pos _,
        fun _ => (hok.array _).mpr ⟨rfl, Nat.pos_of_ne_zero hpos⟩⟩
  obtain ⟨hzs, hother, hself⟩ := hlisted _ rfl
  refine (h.weaken _).rezone hz hfree ?_ (h.relist hzs hother) (fun l' hl' _ => hmem l' hl') ?_ ?_ ?_
  · refine { hok with
      nfree := ?_, slots := ?_, bytes := fun l' hl' => hok.bytes l' (hmem l' hl'), array := ?_ }
    · rw [hok.nfree, length_cons]
      rfl
    · refine (perm_middle.trans ?_).trans hok.slots
      rw [← List.cons_append, ← chunks_cons_self hzone]
      exact (chunks_perm hperm z).symm.append_right _
    · exact mem_relist hself fun zi' hne hin => hne ((hok.array zi').mp hin).1
  · intro z' hne
    refine ((chunks_perm hperm z').trans (.of_eq (chunks_cons_ne fun he => ?_))).symm
    exact hne (Option.some.inj (he.symm.trans hzone))
  · exact ((hperm.filterMap _).trans (.of_eq (blocks_cons_chunk hzone))).symm
  · rw [h.used, sum_erase hperm, hok.bytes l hl hzone, sub32_mod]

theorem Inv.freeZone (h : Inv slab none) (hz : z ∈ slab.zones) (hfree : z ∉ slab.zoneFree)
    (hall : (slab.zone z).nfree = (slab.zone z).nmax) :
    ∃ slab', freeZone slab z = .ok slab' ∧ Inv slab' none ∧ slab'.asked = slab.asked ∧ slab'.live = slab.live := by
  have hok := h.zoneOk hz hfree
  have hempty : chunks slab.live z = [] := by
    have hlen := hok.slots.length_eq
    have hnfree := hok.nfree
    have hu := hok.uindex
    rw [List.length_append, List.length_map, List.length_range] at hlen
    exact List.eq_nil_of_length_eq_zero (by omega)
  have hdead : ∀ l ∈ slab.live, l.zone ≠ some z := fun l hl hzone => by
    have := mem_chunks.mpr ⟨l, hl, hzone, rfl⟩
    rw [hempty] at this
    cases this
  have hnodup := h.nodup.2 (slab.zone z).zoneindex
  have hrelist := h.relist (hnodup.erase z) fun z' hne => List.mem_erase_of_ne hne
  have hleft : Inv { slab with
      zoneArray := update slab.zoneArray (slab.zone z).zoneindex
        ((slab.zoneArray (slab.zone z).zoneindex).erase z) } (some z) := by
    refine ⟨h.geometry.congr rfl rfl rfl rfl, h.pages, h.runs, fun z' hz' hfree' hskip => ?_, fun z' hz' => ?_,
      fun zi z' hz' => ?_, ⟨h.nodup.1, fun zi => (hrelist zi).1⟩, h.usage, h.large, h.chunk, h.cnt, h.used⟩
    · have hne : z' ≠ z := fun he => hskip (congrArg some he.symm)
      exact (h.zoneOk hz' hfree').congr (.refl _) (fun l hl _ => hl) fun zi => (hrelist zi).2 z' hne
    · have hne : z' ≠ z := fun he => hfree (he ▸ hz')
      exact ⟨(h.idle z' hz').1, fun zi hin => (h.idle z' hz').2 zi (((hrelist zi).2 z' hne).mp hin)⟩
    · by_cases hne : z' = z
      · exact hne ▸ hz
      · exact h.array zi z' (((hrelist zi).2 z' hne).mp hz')
  have hblank : Blank { slab with
      zoneArray := update slab.zoneArray (slab.zone z).zoneindex
        ((slab.zoneArray (slab.zone z).zoneindex).erase z) } z := by
    refine ⟨hz, hfree, fun zi hin => ?_, hdead⟩
    have hnot : z ∉ (slab.zoneArray (slab.zone z).zoneindex).erase z := hnodup.not_mem_erase
    refine Nat.lt_irrefl 0 ((mem_relist (n := 0) ⟨fun hin' => absurd hin' hnot, fun hlt => absurd hlt (Nat.lt_irrefl 0)⟩
      (fun zi' hne hin' => hne ((hok.array zi').mp hin').1) zi).mp hin).2
  unfold Slab.freeZone
  dsimp only
  split
  · obtain ⟨slab', hgo, hlive, hasked, hinv⟩ := hleft.givePages hblank (v := { slab.zone z with magic := 2 ^ 32 - 1 })
    exact ⟨slab', hgo, hinv, hasked, hlive⟩
  · rename_i hroom
    exact ⟨_, rfl, hleft.giveFree hblank (Nat.not_lt.mp hroom), rfl, rfl⟩

theorem Inv.freed {slab₀ : RtSlab} {c : Prop} [Decidable c] (h : Inv slab none) (hz : z ∈ slab.zones)
    (hfree : z ∉ slab.zoneFree) (hasked : slab.asked = slab₀.asked)
    (hlive : slab.live = slab₀.live.eraseP fun l => l.ptr = ptr) (hall : c → (slab.zone z).nfree = (slab.zone z).nmax) :
    ∃ slab', (if c then Slab.freeZone slab z else .ok slab) = .ok slab' ∧ Freed slab₀ ptr slab' := by
  split
  · rename_i hc
    obtain ⟨slab', hgo, hinv, hasked', hlive'⟩ := h.freeZone hz hfree (hall hc)
    exact ⟨slab', hgo, hinv, hasked'.trans hasked, hlive'.trans hlive⟩
  · exact ⟨slab, rfl, h, hasked, hlive⟩

theorem Inv.rtSlabFree (h : Inv slab none) (hptr : ptr ∈ slab.live.map Live.ptr) :
    ∃ slab', rtSlabFree slab ptr = .ok slab' ∧ Freed slab ptr slab' := by
  obtain ⟨l, rfl, hperm⟩ := exists_live hptr
  have hl : l ∈ slab.live := hperm.mem_iff.mpr mem_cons_self
  unfold Slab.rtSlabFree
  cases hzone : l.zone with
  | none =>
    obtain ⟨hmod, n, hn, hbytes, hu⟩ := h.large l hl hzone
    dsimp only
    rw [hu, if_pos rfl]
    obtain ⟨slab', hgo, hinv, hasked, hlive⟩ := h.freeLarge hperm hzone hn hmod hbytes ⟨.large, 0⟩
    exact ⟨slab', hgo, hinv, hasked, hlive⟩
  | some z =>
    obtain ⟨hz, hfree⟩ := h.chunk l hl z hzone
    have hok := h.zoneOk hz hfree
    obtain ⟨hlow, hhigh, hpos⟩ := hok.inside hl hzone
    obtain ⟨hsmall, hof⟩ := h.zoneOf hz (p := l.ptr) (by omega) (by omega)
    have hof : Slab.zoneOf { slab with live := slab.live.eraseP fun l' => l'.ptr = l.ptr } l.ptr = z := hof
    have hgive := h.giveChunk hperm hzone
    dsimp only
    rw [hsmall, if_neg nofun, freeChunk]
    rw [hof, if_neg (not_not.mpr hok.magic)]
    refine hgive.freed hz hfree rfl rfl fun hall => ?_
    dsimp only
    rw [update_self]
    exact hall.1

end RtosKernel.RtThread.Slab
