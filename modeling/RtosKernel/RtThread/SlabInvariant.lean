import RtosKernel.RtThread.Slab

/-! # The invariant of the slab allocator -/
namespace RtosKernel.RtThread.Slab
open Lib.Word Lib.PageRuns RtThread.Def List

variable {b : Run} {n zoneSize : Nat} {zoneArray : Nat → List Nat} {v : Zone}

/-! ## The free pages -/

/-- A list of free runs: ascending, none of them empty, no two of them adjacent. -/
structure FreeRuns (l : List Run) : Prop where
  pos : ∀ r ∈ l, 0 < r.pages
  ascending : l.Pairwise fun a b => a.page + a.pages < b.page

theorem FreeRuns.nil : FreeRuns [] := ⟨fun _ hr => (by cases hr), .nil⟩

theorem FreeRuns.tail {l : List Run} (h : FreeRuns (b :: l)) : FreeRuns l :=
  ⟨fun r hr => h.pos r (mem_cons_of_mem _ hr), h.ascending.of_cons⟩

theorem FreeRuns.cons {l : List Run} (h : FreeRuns l) (hpos : 0 < b.pages)
    (hlt : ∀ r ∈ l, b.page + b.pages < r.page) : FreeRuns (b :: l) :=
  ⟨forall_mem_cons.mpr ⟨hpos, h.pos⟩, .cons hlt h.ascending⟩

theorem FreeRuns.lt {l : List Run} (h : FreeRuns (b :: l)) : ∀ r ∈ l, b.page + b.pages < r.page :=
  (pairwise_cons.mp h.ascending).1

theorem pageAlloc_spec {npages : Nat} {page : Nat} {l l' : List Run} (h : FreeRuns l)
    (heq : pageAlloc npages l = some (page, l')) :
    FreeRuns l' ∧ (∀ p, owners l p = (Run.mk page npages).at p + owners l' p) ∧
      ∀ r' ∈ l', ∃ r ∈ l, r.page ≤ r'.page := by
  induction l generalizing l' with
  | nil => cases heq
  | cons b bs ih =>
    rw [pageAlloc] at heq
    split at heq
    · rename_i hlt
      cases heq
      have hsplit : b.pages = npages + (b.pages - npages) := by omega
      refine ⟨h.tail.cons (Nat.sub_pos_of_lt hlt) fun r hr => ?_, fun p => ?_, ?_⟩
      · have := h.lt r hr
        simp only
        omega
      · have := Run.at_add b.page npages (b.pages - npages) p
        rw [← hsplit] at this
        simp only [owners_cons]
        rw [← Nat.add_assoc, ← this]
      · rintro r' (_ | ⟨_, hr⟩)
        · exact ⟨b, mem_cons_self, Nat.le_add_right ..⟩
        · exact ⟨r', mem_cons_of_mem _ hr, Nat.le_refl _⟩
    split at heq
    · rename_i hfit
      cases heq
      refine ⟨h.tail, fun p => ?_, fun r hr => ⟨r, mem_cons_of_mem _ hr, Nat.le_refl _⟩⟩
      rw [owners_cons, ← hfit]
    · obtain ⟨⟨page', bs'⟩, hgo, hmk⟩ := Option.map_eq_some_iff.mp heq
      cases hmk
      obtain ⟨hfree, hcount, hpage⟩ := ih h.tail hgo
      refine ⟨hfree.cons (h.pos b mem_cons_self) fun r' hr' => ?_, fun p => ?_, ?_⟩
      · obtain ⟨r, hr, hle⟩ := hpage r' hr'
        exact Nat.lt_of_lt_of_le (h.lt r hr) hle
      · rw [owners_cons, owners_cons, hcount p, Nat.add_left_comm]
      · rintro r' (_ | ⟨_, hr'⟩)
        · exact ⟨b, mem_cons_self, Nat.le_refl _⟩
        · obtain ⟨r, hr, hle⟩ := hpage r' hr'
          exact ⟨r, mem_cons_of_mem _ hr, hle⟩

theorem extend_spec {npages : Nat} {bs : List Run} (h : FreeRuns (b :: bs)) (hn : 0 < npages)
    (hbound : ∀ r ∈ bs, b.page + b.pages + npages ≤ r.page) :
    FreeRuns (extend b npages bs) ∧
      (∀ p, owners (extend b npages bs) p = (Run.mk (b.page + b.pages) npages).at p + owners (b :: bs) p) ∧
        ∀ r' ∈ extend b npages bs, ∃ r ∈ b :: bs, r.page ≤ r'.page := by
  have hgrow : ∀ p, (Run.mk b.page (b.pages + npages)).at p = b.at p + (Run.mk (b.page + b.pages) npages).at p :=
    Run.at_add b.page b.pages npages
  have hfirst : ∃ r ∈ b :: bs, r.page ≤ b.page := ⟨b, mem_cons_self, Nat.le_refl _⟩
  cases bs with
  | nil =>
    refine ⟨FreeRuns.nil.cons (Nat.add_pos_right _ hn) fun _ hr => (by cases hr), fun p => ?_, ?_⟩
    · rw [extend, owners_cons, hgrow, owners_cons]
      omega
    · intro r' hr'
      rw [mem_singleton.mp hr']
      exact hfirst
  | cons next bs =>
    have hle := hbound next mem_cons_self
    have hlt := h.tail.lt
    simp only [extend]
    split
    · rename_i hjoin
      refine ⟨h.tail.tail.cons ?_ fun r hr => ?_, fun p => ?_, ?_⟩
      · exact Nat.add_pos_left (Nat.add_pos_right _ hn) _
      · have := hlt r hr
        simp only
        omega
      · have htwo : (Run.mk b.page (b.pages + npages + next.pages)).at p =
            (Run.mk b.page (b.pages + npages)).at p + next.at p := by
          rw [Run.at_add, hjoin]
        simp only [owners_cons, htwo, hgrow]
        omega
      · rintro r' (_ | ⟨_, hr⟩)
        · exact hfirst
        · exact ⟨r', mem_cons_of_mem _ (mem_cons_of_mem _ hr), Nat.le_refl _⟩
    · refine ⟨h.tail.cons (Nat.add_pos_right _ hn) fun r hr => ?_, fun p => ?_, ?_⟩
      · rcases mem_cons.mp hr with rfl | hr
        · simp only
          omega
        · have := hlt r hr
          simp only
          omega
      · simp only [owners_cons, hgrow]
        omega
      · rintro r' (_ | ⟨_, hr⟩)
        · exact hfirst
        · exact ⟨r', mem_cons_of_mem _ hr, Nat.le_refl _⟩

theorem pageFree_spec {npages : Nat} {l : List Run} (h : FreeRuns l) (hn : 0 < npages)
    (hapart : ∀ p, (Run.mk n npages).at p + owners l p ≤ 1) :
    ∃ l', pageFree n npages l = .ok l' ∧ FreeRuns l' ∧
      (∀ p, owners l' p = (Run.mk n npages).at p + owners l p) ∧
        ∀ r' ∈ l', r'.page = n ∨ ∃ r ∈ l, r.page ≤ r'.page := by
  induction l with
  | nil =>
    refine ⟨_, rfl, FreeRuns.nil.cons hn fun _ hr => (by cases hr), fun p => owners_cons, fun r' hr' => .inl ?_⟩
    rw [mem_singleton.mp hr']
  | cons b bs ih =>
    have hb : 0 < b.pages := h.pos b mem_cons_self
    have hbs : ∀ p, (Run.mk n npages).at p + owners bs p ≤ 1 := fun p => by
      have := hapart p
      rw [owners_cons] at this
      omega
    -- Against one run of the list.
    have hrun : ∀ r ∈ b :: bs, n + npages ≤ r.page ∨ r.page + r.pages ≤ n := fun r hr => by
      refine @Run.Apart.bounds ⟨n, npages⟩ r (fun p hp => ?_) hn (h.pos r hr)
      have := hapart p
      have := Run.at_pos.mpr hp.1
      have := owners_pos hr hp.2
      omega
    have hbound := hrun b mem_cons_self
    rw [pageFree, if_neg (by rw [not_not]; omega)]
    split
    · rename_i hend
      obtain ⟨hfree, hcount, hpage⟩ := extend_spec h hn fun r hr => by
        have := hrun r (mem_cons_of_mem _ hr)
        have := h.lt r hr
        omega
      rw [hend] at hcount
      exact ⟨_, rfl, hfree, hcount, fun r' hr' => .inr (hpage r' hr')⟩
    split
    · rename_i hstart
      refine ⟨_, rfl, h.tail.cons (Nat.add_pos_left hb _) fun r hr => ?_, fun p => ?_, ?_⟩
      · have := h.lt r hr
        simp only
        omega
      · have hone : (Run.mk n (b.pages + npages)).at p = (Run.mk n npages).at p + b.at p := by
          rw [Nat.add_comm, Run.at_add, ← hstart]
        simp only [owners_cons, hone]
        omega
      · rintro r' (_ | ⟨_, hr⟩)
        · exact .inl rfl
        · exact .inr ⟨r', mem_cons_of_mem _ hr, Nat.le_refl _⟩
    split
    · rename_i hbefore
      refine ⟨_, rfl, h.cons hn fun r hr => ?_, fun p => by rw [owners_cons], ?_⟩
      · rcases mem_cons.mp hr with rfl | hr
        · exact hbefore
        · have := h.lt r hr
          simp only
          omega
      · rintro r' (_ | ⟨_, hr⟩)
        · exact .inl rfl
        · exact .inr ⟨r', hr, Nat.le_refl _⟩
    · obtain ⟨l', hgo, hfree, hcount, hpage⟩ := ih h.tail hbs
      refine ⟨b :: l', by rw [hgo]; rfl, hfree.cons hb fun r' hr' => ?_, fun p => ?_, ?_⟩
      · rcases hpage r' hr' with he | ⟨r, hr, hle⟩
        · omega
        · exact Nat.lt_of_lt_of_le (h.lt r hr) hle
      · rw [owners_cons, owners_cons, hcount p, Nat.add_left_comm]
      · rintro r' (_ | ⟨_, hr'⟩)
        · exact .inr ⟨b, mem_cons_self, Nat.le_refl _⟩
        · rcases hpage r' hr' with he | ⟨r, hr, hle⟩
          · exact .inl he
          · exact .inr ⟨r, mem_cons_of_mem _ hr, hle⟩

/-! ## Sizes and indices -/

def chunkFor (zi : Nat) : Nat :=
  if zi < 16 then 8 * (zi + 1)
  else if zi < 24 then 16 * (zi - 7)
  else if zi < 32 then 32 * (zi - 15)
  else if zi < 40 then 64 * (zi - 23)
  else if zi < 48 then 128 * (zi - 31)
  else if zi < 56 then 256 * (zi - 39)
  else if zi < 64 then 512 * (zi - 47)
  else 1024 * (zi - 55)

theorem roundUp_eq (n mask : Nat) :
    ∃ k, roundUp n mask = (mask + 1) * k ∧ n ≤ (mask + 1) * k ∧ (mask + 1) * k ≤ n + mask := by
  have hdiv := Nat.div_add_mod (n + mask) (mask + 1)
  have hmod := Nat.mod_lt (n + mask) (Nat.add_one_pos mask)
  refine ⟨(n + mask) / (mask + 1), Nat.mul_comm .., ?_, ?_⟩ <;> omega

/-- What `zoneindex` makes of a size: the chunks of an index, into which it fits. -/
structure Rounded (n : Nat) (r : Nat × Nat) : Prop where
  index : r.1 < RT_SLAB_NZONES
  chunk : r.2 = chunkFor r.1
  le : n ≤ r.2
  half : n < 8192 → r.2 ≤ 8192
  max : r.2 ≤ 16384

theorem row_spec {mask : Nat} {index : Nat → Nat}
    (hrow : ∀ k, n ≤ (mask + 1) * k → (mask + 1) * k ≤ n + mask → Rounded n (index k, (mask + 1) * k)) :
    Rounded n (index (roundUp n mask / (mask + 1)), roundUp n mask) := by
  obtain ⟨k, hk, hle, hlt⟩ := roundUp_eq n mask
  rw [hk, Nat.mul_div_cancel_left k (Nat.add_one_pos mask)]
  exact hrow k hle hlt

theorem zoneindex_spec (hpos : 0 < n) (hn : n < 16384) : Rounded n (zoneindex n) := by
  unfold zoneindex
  split
  · refine @row_spec n 7 (fun k => k - 1) fun k hle hlt => ⟨?_, ?_, hle, ?_, ?_⟩ <;>
      simp only [RT_SLAB_NZONES, chunkFor] <;> grind
  split
  · refine @row_spec n 15 (fun k => k + 7) fun k hle hlt => ⟨?_, ?_, hle, ?_, ?_⟩ <;>
      simp only [RT_SLAB_NZONES, chunkFor] <;> grind
  split
  · refine @row_spec n 31 (fun k => k + 15) fun k hle hlt => ⟨?_, ?_, hle, ?_, ?_⟩ <;>
      simp only [RT_SLAB_NZONES, chunkFor] <;> grind
  split
  · refine @row_spec n 63 (fun k => k + 23) fun k hle hlt => ⟨?_, ?_, hle, ?_, ?_⟩ <;>
      simp only [RT_SLAB_NZONES, chunkFor] <;> grind
  split
  · refine @row_spec n 127 (fun k => k + 31) fun k hle hlt => ⟨?_, ?_, hle, ?_, ?_⟩ <;>
      simp only [RT_SLAB_NZONES, chunkFor] <;> grind
  split
  · refine @row_spec n 255 (fun k => k + 39) fun k hle hlt => ⟨?_, ?_, hle, ?_, ?_⟩ <;>
      simp only [RT_SLAB_NZONES, chunkFor] <;> grind
  split
  · refine @row_spec n 511 (fun k => k + 47) fun k hle hlt => ⟨?_, ?_, hle, ?_, ?_⟩ <;>
      simp only [RT_SLAB_NZONES, chunkFor] <;> grind
  · refine @row_spec n 1023 (fun k => k + 55) fun k hle hlt => ⟨?_, ?_, hle, ?_, ?_⟩ <;>
      simp only [RT_SLAB_NZONES, chunkFor] <;> grind

theorem chunkOffset_bounds {size : Nat} (hpos : 0 < size) :
    sizeofZone ≤ chunkOffset size ∧ chunkOffset size < sizeofZone + 8 + size := by
  unfold chunkOffset
  split
  · obtain ⟨k, hk, hle, hlt⟩ := roundUp_eq sizeofZone (size - 1)
    omega
  · exact ⟨by decide, Nat.lt_of_lt_of_le (by decide : _ < sizeofZone + 8) (Nat.le_add_right ..)⟩

/-! ## The invariant -/

def chunks (live : List Live) (z : Nat) : List Nat := (live.filter fun l => l.zone = some z).map Live.ptr

/-- The live blocks that are not in a zone. -/
def blocks (live : List Live) : List Run := live.filterMap Live.run

def zoneRuns (cnt : Nat) (zones : List Nat) : List Run := zones.map fun z => ⟨z, cnt⟩

structure Geometry (slab : RtSlab) : Prop where
  zoneSize : slab.zoneSize = 32768 ∨ slab.zoneSize = 65536 ∨ slab.zoneSize = 131072
  zoneLimit : slab.zoneLimit = min (slab.zoneSize / 4) ZALLOC_ZONE_LIMIT
  zonePageCnt : slab.zonePageCnt = slab.zoneSize / RT_MM_PAGE_SIZE
  small : npages slab * RT_MM_PAGE_SIZE < 2 ^ 32

/-- A zone in use, by its header: each of its chunks up to `z_uindex` is live or in its list, and is so once. -/
structure ZoneOk (zoneSize : Nat) (live : List Live) (zoneArray : Nat → List Nat) (z : Nat) (v : Zone) : Prop where
  magic : v.magic = ZALLOC_SLAB_MAGIC
  chunk : v.chunksize = chunkFor v.zoneindex
  pos : 0 < v.chunksize
  start : z * RT_MM_PAGE_SIZE + sizeofZone ≤ v.baseptr
  fin : v.baseptr + v.nmax * v.chunksize ≤ z * RT_MM_PAGE_SIZE + zoneSize
  uindex : v.uindex < v.nmax
  two : 2 ≤ v.nmax
  nfree : v.nfree = v.nmax - 1 - v.uindex + v.freechunk.length
  slots : (chunks live z ++ v.freechunk).Perm ((range (v.uindex + 1)).map fun i => v.baseptr + i * v.chunksize)
  bytes : ∀ l ∈ live, l.zone = some z → l.bytes = v.chunksize
  array : ∀ zi, z ∈ zoneArray zi ↔ zi = v.zoneindex ∧ 0 < v.nfree

/-- A live block that is not in a zone. -/
def Large (slab : RtSlab) (l : Live) : Prop :=
  l.ptr % RT_MM_PAGE_SIZE = 0 ∧ ∃ n, 0 < n ∧ l.bytes = n * RT_MM_PAGE_SIZE ∧
    slab.memusage (l.ptr / RT_MM_PAGE_SIZE) = ⟨.large, n⟩

/-- The invariant. One zone may be left out, while its header is written. -/
structure Inv (slab : RtSlab) (skip : Option Nat) : Prop where
  geometry : Geometry slab
  pages : ∀ p, owners slab.pageList p + owners slab.array.toList p + owners (blocks slab.live) p +
    owners (zoneRuns slab.zonePageCnt slab.zones) p = if p < npages slab then 1 else 0
  runs : FreeRuns slab.pageList
  zone : ∀ z ∈ slab.zones, z ∉ slab.zoneFree → skip ≠ some z →
    ZoneOk slab.zoneSize slab.live slab.zoneArray z (slab.zone z)
  idle : ∀ z ∈ slab.zoneFree, z ∈ slab.zones ∧ ∀ zi, z ∉ slab.zoneArray zi
  array : ∀ zi, ∀ z ∈ slab.zoneArray zi, z ∈ slab.zones
  nodup : slab.zoneFree.Nodup ∧ ∀ zi, (slab.zoneArray zi).Nodup
  usage : ∀ z ∈ slab.zones, ∀ off < slab.zonePageCnt, slab.memusage (z + off) = ⟨.small, off⟩
  large : ∀ l ∈ slab.live, l.zone = none → Large slab l
  chunk : ∀ l ∈ slab.live, ∀ z, l.zone = some z → z ∈ slab.zones ∧ z ∉ slab.zoneFree
  cnt : slab.zoneFreeCnt = slab.zoneFree.length ∧ slab.zoneFreeCnt ≤ ZONE_RELEASE_THRESH
  used : slab.used = (slab.live.map Live.bytes).sum % 2 ^ 32

section
variable {slab slab' : RtSlab} {skip : Option Nat} {z z' p : Nat} {l : Live} {live live' : List Live}

theorem Inv.zoneOk (h : Inv slab none) (hz : z ∈ slab.zones) (hfree : z ∉ slab.zoneFree) :
    ZoneOk slab.zoneSize slab.live slab.zoneArray z (slab.zone z) :=
  h.zone z hz hfree (by simp)

theorem Geometry.bounds (h : Geometry slab) :
    32768 ≤ slab.zoneSize ∧ slab.zoneLimit ≤ slab.zoneSize / 4 ∧ 8192 ≤ slab.zoneLimit ∧ slab.zoneLimit ≤ 16384 ∧
      slab.zonePageCnt * RT_MM_PAGE_SIZE = slab.zoneSize ∧ 0 < slab.zonePageCnt := by
  have := h.zoneLimit
  have := h.zonePageCnt
  simp only [ZALLOC_ZONE_LIMIT, RT_MM_PAGE_SIZE] at *
  rcases h.zoneSize with hs | hs | hs <;> omega

theorem Geometry.congr (h : Geometry slab) (hs : slab'.zoneSize = slab.zoneSize) (hl : slab'.zoneLimit = slab.zoneLimit)
    (hc : slab'.zonePageCnt = slab.zonePageCnt) (hp : npages slab' = npages slab) : Geometry slab' :=
  ⟨hs ▸ h.zoneSize, by rw [hl, hs]; exact h.zoneLimit, by rw [hc, hs]; exact h.zonePageCnt, by rw [hp]; exact h.small⟩

theorem chunks_perm (h : live.Perm live') (z : Nat) : (chunks live z).Perm (chunks live' z) := (h.filter _).map _

theorem chunks_cons_self (h : l.zone = some z) : chunks (l :: live) z = l.ptr :: chunks live z := by
  simp [chunks, h]

theorem chunks_cons_ne (h : l.zone ≠ some z) : chunks (l :: live) z = chunks live z := by
  simp [chunks, h]

theorem blocks_cons (h : l.zone = none) :
    blocks (l :: live) = ⟨l.ptr / RT_MM_PAGE_SIZE, l.bytes / RT_MM_PAGE_SIZE⟩ :: blocks live := by
  simp [blocks, Live.run, h]

theorem blocks_cons_chunk (h : l.zone = some z) : blocks (l :: live) = blocks live := by
  simp [blocks, Live.run, h]

theorem mem_chunks : p ∈ chunks live z ↔ ∃ l ∈ live, l.zone = some z ∧ l.ptr = p := by
  simp [chunks, and_assoc]

/-! ### Pages -/

theorem Inv.pages_le (h : Inv slab skip) (p : Nat) :
    owners slab.pageList p + owners slab.array.toList p + owners (blocks slab.live) p +
      owners (zoneRuns slab.zonePageCnt slab.zones) p ≤ 1 := by
  have := h.pages p
  split at this <;> omega

theorem zoneRuns_pos (hz : z ∈ slab.zones) (hp : z ≤ p ∧ p < z + slab.zonePageCnt) :
    0 < owners (zoneRuns slab.zonePageCnt slab.zones) p :=
  owners_pos (List.mem_map.mpr ⟨z, hz, rfl⟩) hp

section
variable (h : Inv slab skip)
include h

theorem Inv.blocks_pos (hl : l ∈ slab.live) (hz : l.zone = none)
    (hp : l.ptr ≤ p * RT_MM_PAGE_SIZE ∧ p * RT_MM_PAGE_SIZE < l.ptr + l.bytes) : 0 < owners (blocks slab.live) p := by
  obtain ⟨hmod, n, hn, hbytes, -⟩ := h.large l hl hz
  refine owners_pos (r := ⟨l.ptr / RT_MM_PAGE_SIZE, l.bytes / RT_MM_PAGE_SIZE⟩)
    (mem_filterMap.mpr ⟨l, hl, by rw [Live.run, if_pos hz]⟩) ?_
  simp only [Run.Has, RT_MM_PAGE_SIZE] at *
  omega

theorem Inv.zones_apart : slab.zones.Pairwise fun z z' => (Run.mk z slab.zonePageCnt).Apart ⟨z', slab.zonePageCnt⟩ :=
  pairwise_map.mp (@pairwise_apart (zoneRuns slab.zonePageCnt slab.zones) fun p => by
    have := h.pages_le p
    omega)

theorem Inv.zone_eq (hz : z ∈ slab.zones) (hz' : z' ∈ slab.zones)
    (hp : z ≤ p ∧ p < z + slab.zonePageCnt) (hp' : z' ≤ p ∧ p < z' + slab.zonePageCnt) : z = z' := by
  have : Std.Symm fun z z' => (Run.mk z slab.zonePageCnt).Apart ⟨z', slab.zonePageCnt⟩ := ⟨fun _ _ => Run.Apart.symm⟩
  by_contra hne
  exact h.zones_apart.forall hz hz' hne p ⟨hp, hp'⟩

theorem Inv.zones_nodup : slab.zones.Nodup := by
  refine h.zones_apart.imp fun {z z'} hap he => hap z ?_
  have hpos := h.geometry.bounds.2.2.2.2.2
  subst he
  exact ⟨⟨Nat.le_refl _, Nat.lt_add_of_pos_right hpos⟩, ⟨Nat.le_refl _, Nat.lt_add_of_pos_right hpos⟩⟩

theorem Inv.zoneOf (hz : z ∈ slab.zones) (hlow : z * RT_MM_PAGE_SIZE ≤ p)
    (hhigh : p < z * RT_MM_PAGE_SIZE + slab.zoneSize) :
    (slab.memusage (p / RT_MM_PAGE_SIZE)).type = .small ∧ zoneOf slab p = z := by
  have hb := h.geometry.bounds
  simp only [RT_MM_PAGE_SIZE] at *
  have hoff : p / 4096 - z < slab.zonePageCnt := by omega
  have hu := h.usage z hz (p / 4096 - z) hoff
  rw [show z + (p / 4096 - z) = p / 4096 by omega] at hu
  refine ⟨by rw [hu], ?_⟩
  simp only [Slab.zoneOf, RT_MM_PAGE_SIZE, hu]
  omega

end

/-! ### Steps on zones -/

section
variable (h : ZoneOk zoneSize live zoneArray z v)
include h

theorem ZoneOk.congr {zoneArray' : Nat → List Nat} (hchunks : (chunks live' z).Perm (chunks live z))
    (hlive : ∀ l ∈ live', l.zone = some z → l ∈ live) (harray : ∀ zi, z ∈ zoneArray' zi ↔ z ∈ zoneArray zi) :
    ZoneOk zoneSize live' zoneArray' z v :=
  { h with
    slots := (hchunks.append_right _).trans h.slots
    bytes := fun l hl hz => h.bytes l (hlive l hl hz) hz
    array := fun zi => (harray zi).trans (h.array zi) }

theorem ZoneOk.slot
    (hp : p ∈ chunks live z) : ∃ i < v.nmax, p = v.baseptr + i * v.chunksize := by
  obtain ⟨i, hi, rfl⟩ := List.mem_map.mp (h.slots.mem_iff.mp (mem_append_left _ hp))
  exact ⟨i, Nat.lt_of_le_of_lt (Nat.le_of_lt_succ (mem_range.mp hi)) h.uindex, rfl⟩

theorem ZoneOk.inside
    (hl : l ∈ live) (hz : l.zone = some z) :
    z * RT_MM_PAGE_SIZE + sizeofZone ≤ l.ptr ∧ l.ptr + l.bytes ≤ z * RT_MM_PAGE_SIZE + zoneSize ∧ 0 < l.bytes := by
  obtain ⟨i, hi, hp⟩ := h.slot (mem_chunks.mpr ⟨l, hl, hz, rfl⟩)
  have hmul := Nat.mul_le_mul_right v.chunksize hi
  rw [Nat.succ_mul] at hmul
  have := h.start
  have := h.fin
  have := h.pos
  rw [hp, h.bytes l hl hz]
  omega

end

theorem Inv.rezone {used max : Nat} (h : Inv slab (some z))
    (hz : z ∈ slab.zones) (hfree : z ∉ slab.zoneFree)
    (hok : ZoneOk slab.zoneSize live zoneArray z v)
    (harray : ∀ zi, (zoneArray zi).Nodup ∧ ∀ z' ≠ z, z' ∈ zoneArray zi ↔ z' ∈ slab.zoneArray zi)
    (hlive : ∀ l ∈ live, l.zone ≠ some z → l ∈ slab.live)
    (hchunks : ∀ z' ≠ z, (chunks live z').Perm (chunks slab.live z')) (hblocks : (blocks live).Perm (blocks slab.live))
    (hused : used = (live.map Live.bytes).sum % 2 ^ 32) :
    Inv { slab with zone := Function.update slab.zone z v, zoneArray, live, used, max } none where
  geometry := h.geometry.congr rfl rfl rfl rfl
  pages p := by rw [owners_perm hblocks]; exact h.pages p
  runs := h.runs
  zone z' hz' hfree' _ := by
    by_cases heq : z' = z
    · subst heq
      dsimp only
      rw [Function.update_self]
      exact hok
    · dsimp only
      rw [Function.update_of_ne heq]
      refine (h.zone z' hz' hfree' fun he => heq (Option.some.inj he).symm).congr (hchunks z' heq)
        (fun l hl hzone => hlive l hl fun he => ?_) fun zi => (harray zi).2 z' heq
      exact heq (Option.some.inj (hzone.symm.trans he))
  idle z' hz' := by
    have hne : z' ≠ z := fun he => hfree (he ▸ hz')
    exact ⟨(h.idle z' hz').1, fun zi hmem => (h.idle z' hz').2 zi (((harray zi).2 z' hne).mp hmem)⟩
  array zi z' hz' := by
    by_cases heq : z' = z
    · exact heq ▸ hz
    · exact h.array zi z' (((harray zi).2 z' heq).mp hz')
  nodup := ⟨h.nodup.1, fun zi => (harray zi).1⟩
  usage := h.usage
  large l hl hzone := h.large l (hlive l hl (by rw [hzone]; nofun)) hzone
  chunk l hl z' hzone := by
    by_cases heq : z' = z
    · subst heq
      exact ⟨hz, hfree⟩
    · exact h.chunk l (hlive l hl fun he => heq (Option.some.inj (hzone.symm.trans he))) z' hzone
  cnt := h.cnt
  used := hused

theorem Inv.weaken (h : Inv slab none) (skip : Option Nat) : Inv slab skip :=
  { h with zone := fun z hz hfree _ => h.zone z hz hfree (by simp) }

end

end RtosKernel.RtThread.Slab
