import RtosKernel.Lib.PageRuns
import RtosKernel.Lib.Runs
import RtosKernel.RtThread.Def

/-! # The slab allocator (`slab.c`)

Addresses are counted from `heap_start`, which is a multiple of the page size; `none` is `RT_NULL`. What the code keeps
in the memory that it manages (the nodes of `page_list` in the free pages, the headers of the zones, the links of the
free chunks) is kept beside it. -/
namespace RtosKernel.RtThread.Slab
open Lib.Word Lib.PageRuns RtThread.Def

def ZALLOC_SLAB_MAGIC : Nat := 0x51ab51ab
def ZALLOC_ZONE_LIMIT : Nat := 16 * 1024
def ZALLOC_MIN_ZONE_SIZE : Nat := 32 * 1024
def ZALLOC_MAX_ZONE_SIZE : Nat := 128 * 1024
def ZONE_RELEASE_THRESH : Nat := 2
def MIN_CHUNK_MASK : Nat := 7
def RT_MM_PAGE_SIZE : Nat := 4096
def RT_SLAB_NZONES : Nat := 72

/-- `sizeof(struct rt_slab_zone)`. -/
def sizeofZone : Nat := 36

/-- `sizeof(struct rt_slab_memusage)`. -/
def sizeofMemusage : Nat := 4

inductive PageType where
  | free
  | small
  | large
  deriving DecidableEq

structure Memusage where
  type : PageType
  /-- The pages allocated, or the offset from the zone. -/
  size : Nat
  deriving DecidableEq

/-- `struct rt_slab_zone`, without its link. -/
structure Zone where
  magic : Nat
  nfree : Nat
  nmax : Nat
  baseptr : Nat
  uindex : Nat
  chunksize : Nat
  zoneindex : Nat
  freechunk : List Nat

/-- A pointer that was handed out: with the zone of a chunk, and with the bytes it has. -/
structure Live where
  ptr : Nat
  bytes : Nat
  zone : Option Nat
  deriving DecidableEq

/-- `struct rt_slab`. A zone is named by its first page. -/
structure RtSlab where
  heapStart : Nat
  heapEnd : Nat
  used : Nat
  max : Nat
  pageList : List Run
  memusage : Nat → Memusage
  zoneArray : Nat → List Nat
  zoneFree : List Nat
  zoneFreeCnt : Nat
  zoneSize : Nat
  zoneLimit : Nat
  zonePageCnt : Nat
  zone : Nat → Zone
  /-- The pages of the array behind `memusage`, where it was obtained. -/
  array : Option Run
  /-- What is handed out, the zones, and what was last asked for at a pointer. No code reads these. -/
  live : List Live
  zones : List Nat
  asked : Nat → Nat

inductive Stop where
  /-- The call is not one that a caller may make. -/
  | refused
  | assert
  /-- `RT_NULL` is read from. -/
  | fault
  deriving DecidableEq

variable (slab : RtSlab)

def setZone (z : Nat) (v : Zone) : RtSlab := { slab with zone := Function.update slab.zone z v }

def setArray (zi : Nat) (zs : List Nat) : RtSlab := { slab with zoneArray := Function.update slab.zoneArray zi zs }

/-! ## Pages -/

/-- The loop of `rt_slab_page_alloc`. -/
def pageAlloc (npages : Nat) : List Run → Option (Nat × List Run)
  | [] => none
  | b :: bs =>
    if npages < b.pages then some (b.page, ⟨b.page + npages, b.pages - npages⟩ :: bs)
    else if b.pages = npages then some (b.page, bs)
    else (pageAlloc npages bs).map fun (page, bs) => (page, b :: bs)

def rtSlabPageAlloc (npages : Nat) : RtSlab × Option Nat :=
  if npages = 0 then (slab, none)
  else
    match pageAlloc npages slab.pageList with
    | some (page, pageList) => ({ slab with pageList }, some page)
    | none => (slab, none)

/-- A free run with more pages at its end, and with the next run where they meet. -/
def extend (b : Run) (npages : Nat) : List Run → List Run
  | [] => [⟨b.page, b.pages + npages⟩]
  | next :: bs =>
    if b.page + (b.pages + npages) = next.page then ⟨b.page, b.pages + npages + next.pages⟩ :: bs
    else ⟨b.page, b.pages + npages⟩ :: next :: bs

/-- The loop of `rt_slab_page_free`. -/
def pageFree (n npages : Nat) : List Run → Except Stop (List Run)
  | [] => .ok [⟨n, npages⟩]
  | b :: bs =>
    if ¬ (0 < b.pages ∧ (n < b.page ∨ b.page + b.pages ≤ n)) then .error .assert
    else if b.page + b.pages = n then .ok (extend b npages bs)
    else if b.page = n + npages then .ok (⟨n, b.pages + npages⟩ :: bs)
    else if n + npages < b.page then .ok (⟨n, npages⟩ :: b :: bs)
    else (pageFree n npages bs).map fun bs => b :: bs

/-- `rt_slab_page_free` of the page at an address. -/
def rtSlabPageFree (addr npages : Nat) : Except Stop RtSlab :=
  if addr % RT_MM_PAGE_SIZE ≠ 0 ∨ npages = 0 then .error .assert
  else (pageFree (addr / RT_MM_PAGE_SIZE) npages slab.pageList).map fun pageList => { slab with pageList }

/-- `(n + mask) & ~mask`, where the sum does not wrap. -/
def roundUp (n mask : Nat) : Nat := (n + mask) / (mask + 1) * (mask + 1)

/-- `zoneindex`, with what it leaves in `bytes`. -/
def zoneindex (n : Nat) : Nat × Nat :=
  if n < 128 then
    let n := roundUp n 7
    (n / 8 - 1, n)
  else if n < 256 then
    let n := roundUp n 15
    (n / 16 + 7, n)
  else if n < 512 then
    let n := roundUp n 31
    (n / 32 + 15, n)
  else if n < 1024 then
    let n := roundUp n 63
    (n / 64 + 23, n)
  else if n < 2048 then
    let n := roundUp n 127
    (n / 128 + 31, n)
  else if n < 4096 then
    let n := roundUp n 255
    (n / 256 + 39, n)
  else if n < 8192 then
    let n := roundUp n 511
    (n / 512 + 47, n)
  else if n < 16384 then
    let n := roundUp n 1023
    (n / 1024 + 55, n)
  else (0, n)

/-! ## Allocation -/

def addUsed (size : Nat) : RtSlab :=
  let used := add32 slab.used size
  { slab with used, max := if slab.max < used then used else slab.max }

/-- `rt_slab_alloc` of at least `zone_limit` bytes. -/
def allocLarge (size : Nat) : RtSlab × Option Nat :=
  let size := rtAlign size RT_MM_PAGE_SIZE
  match rtSlabPageAlloc slab (size / RT_MM_PAGE_SIZE) with
  | (slab, none) => (slab, none)
  | (slab, some page) =>
    let slab := addUsed { slab with
      memusage := Function.update slab.memusage page ⟨.large, size / RT_MM_PAGE_SIZE % 2 ^ 30⟩ } size
    ({ slab with live := ⟨page * RT_MM_PAGE_SIZE, size, none⟩ :: slab.live }, some (page * RT_MM_PAGE_SIZE))

/-- `rt_slab_alloc` out of the first zone of an index. -/
def allocZone (zi size z : Nat) : Except Stop (RtSlab × Option Nat) :=
  let v := slab.zone z
  if v.nfree = 0 then .error .assert
  else
    let slab := setArray slab zi (if v.nfree - 1 = 0 then (slab.zoneArray zi).tail else slab.zoneArray zi)
    let v := { v with nfree := v.nfree - 1 }
    if v.uindex + 1 ≠ v.nmax then
      let v := { v with uindex := v.uindex + 1 }
      let chunk := v.baseptr + v.uindex * size
      let slab := addUsed (setZone slab z v) v.chunksize
      .ok ({ slab with live := ⟨chunk, v.chunksize, some z⟩ :: slab.live }, some chunk)
    else
      match v.freechunk with
      | [] => .error .fault
      | chunk :: freechunk =>
        let slab := addUsed (setZone slab z { v with freechunk }) v.chunksize
        .ok ({ slab with live := ⟨chunk, v.chunksize, some z⟩ :: slab.live }, some chunk)

/-- The loops over the pages of a zone. -/
def setUsage (memusage : Nat → Memusage) (z cnt : Nat) (usage : Nat → Memusage) : Nat → Memusage := fun p =>
  if z ≤ p ∧ p < z + cnt then usage (p - z) else memusage p

/-- A zone out of the list of free ones, or out of pages. -/
def takeZone : RtSlab × Option Nat :=
  match slab.zoneFree with
  | z :: zoneFree => ({ slab with zoneFree, zoneFreeCnt := slab.zoneFreeCnt - 1 }, some z)
  | [] =>
    match rtSlabPageAlloc slab (slab.zoneSize / RT_MM_PAGE_SIZE) with
    | (slab, none) => (slab, none)
    | (slab, some z) =>
      ({ slab with
        memusage := setUsage slab.memusage z slab.zonePageCnt fun off => ⟨.small, off⟩
        zones := z :: slab.zones }, some z)

/-- The offset of the chunks in a zone. -/
def chunkOffset (size : Nat) : Nat :=
  if (size ||| (size - 1)) + 1 = size <<< 1 then roundUp sizeofZone (size - 1) else roundUp sizeofZone MIN_CHUNK_MASK

/-- `rt_slab_alloc` out of a new zone. -/
def allocNewZone (zi size : Nat) : RtSlab × Option Nat :=
  match takeZone slab with
  | (slab, none) => (slab, none)
  | (slab, some z) =>
    let off := chunkOffset size
    let nmax := (slab.zoneSize - off) / size
    let chunk := z * RT_MM_PAGE_SIZE + off
    let slab := addUsed (setArray (setZone slab z
      { magic := ZALLOC_SLAB_MAGIC, nfree := nmax - 1, nmax, baseptr := chunk, uindex := 0, chunksize := size
        zoneindex := zi, freechunk := [] }) zi (z :: slab.zoneArray zi)) size
    ({ slab with live := ⟨chunk, size, some z⟩ :: slab.live }, some chunk)

def rtSlabAlloc (size : Nat) : Except Stop (RtSlab × Option Nat) :=
  if size = 0 then .ok (slab, none)
  else if slab.zoneLimit ≤ size then .ok (allocLarge slab size)
  else
    let (zi, size) := zoneindex size
    if RT_SLAB_NZONES ≤ zi then .error .assert
    else
      match slab.zoneArray zi with
      | z :: _ => allocZone slab zi size z
      | [] => .ok (allocNewZone slab zi size)

/-! ## Release -/

def zoneOf (ptr : Nat) : Nat := ptr / RT_MM_PAGE_SIZE - (slab.memusage (ptr / RT_MM_PAGE_SIZE)).size

/-- Takes a zone that is wholly free out of the array. -/
def freeZone (z : Nat) : Except Stop RtSlab :=
  let v := slab.zone z
  let slab := setArray slab v.zoneindex ((slab.zoneArray v.zoneindex).erase z)
  let slab := { setZone slab z { v with magic := 2 ^ 32 - 1 } with
    zoneFree := z :: slab.zoneFree, zoneFreeCnt := slab.zoneFreeCnt + 1 }
  if ZONE_RELEASE_THRESH < slab.zoneFreeCnt then
    match slab.zoneFree with
    | [] => .error .fault
    | z :: zoneFree =>
      let slab := { slab with zoneFree, zoneFreeCnt := slab.zoneFreeCnt - 1 }
      let slab := { slab with
        memusage := setUsage slab.memusage z slab.zonePageCnt fun _ => ⟨.free, 0⟩
        zones := slab.zones.erase z }
      rtSlabPageFree slab (z * RT_MM_PAGE_SIZE) (slab.zoneSize / RT_MM_PAGE_SIZE)
  else .ok slab

/-- `rt_slab_free` of a chunk. A zone is alone in its list when it is the first and has no next. -/
def freeChunk (ptr : Nat) : Except Stop RtSlab :=
  let z := zoneOf slab ptr
  let v := slab.zone z
  if v.magic ≠ ZALLOC_SLAB_MAGIC then .error .assert
  else
    let slab := { slab with used := sub32 slab.used v.chunksize }
    let slab := setArray slab v.zoneindex
      (if v.nfree = 0 then z :: slab.zoneArray v.zoneindex else slab.zoneArray v.zoneindex)
    let slab := setZone slab z { v with freechunk := ptr :: v.freechunk, nfree := v.nfree + 1 }
    if v.nfree + 1 = v.nmax ∧ slab.zoneArray v.zoneindex ≠ [z] then freeZone slab z else .ok slab

def rtSlabFree (ptr : Nat) : Except Stop RtSlab :=
  let slab := { slab with live := slab.live.eraseP fun l => l.ptr = ptr }
  let kup := slab.memusage (ptr / RT_MM_PAGE_SIZE)
  if kup.type = .large then
    rtSlabPageFree { slab with
      memusage := Function.update slab.memusage (ptr / RT_MM_PAGE_SIZE) { kup with size := 0 }
      used := sub32 slab.used (kup.size * RT_MM_PAGE_SIZE) } ptr kup.size
  else freeChunk slab ptr

/-- The end of `rt_slab_realloc`. -/
def moveTo (ptr size : Nat) : Except Stop (RtSlab × Option Nat) :=
  (rtSlabAlloc slab size).bind fun (slab, nptr) =>
    match nptr with
    | none => .ok (slab, none)
    | some nptr => (rtSlabFree slab ptr).map fun slab => (slab, some nptr)

def rtSlabRealloc (ptr : Option Nat) (size : Nat) : Except Stop (RtSlab × Option Nat) :=
  match ptr with
  | none => rtSlabAlloc slab size
  | some ptr =>
    if size = 0 then (rtSlabFree slab ptr).map fun slab => (slab, none)
    else
      match (slab.memusage (ptr / RT_MM_PAGE_SIZE)).type with
      | .large => moveTo slab ptr size
      | .small =>
        let v := slab.zone (zoneOf slab ptr)
        if v.magic ≠ ZALLOC_SLAB_MAGIC then .error .assert
        else
          let size := (zoneindex size).2
          if v.chunksize = size then .ok (slab, some ptr) else moveTo slab ptr size
      | .free => .ok (slab, none)

/-! ## Initialization -/

/-- The loop over `zone_size` of `rt_slab_init`. -/
def zoneSizeFor (limsize : Nat) : Nat → Nat → Nat
  | 0, zoneSize => zoneSize
  | n + 1, zoneSize =>
    if zoneSize < ZALLOC_MAX_ZONE_SIZE ∧ zoneSize * 2 < limsize / 1024 then zoneSizeFor limsize n (zoneSize * 2)
    else zoneSize

/-- The object, before the array behind `memusage` is allocated. -/
def emptySlab (beginAlign endAlign : Nat) (pageList : List Run) (memusage : Nat → Memusage) (zone : Nat → Zone) :
    RtSlab :=
  let zoneSize := zoneSizeFor (endAlign - beginAlign) 2 ZALLOC_MIN_ZONE_SIZE
  { heapStart := beginAlign, heapEnd := endAlign, used := 0, max := 0, pageList, memusage, zoneArray := fun _ => []
    zoneFree := [], zoneFreeCnt := 0, zoneSize, zoneLimit := min (zoneSize / 4) ZALLOC_ZONE_LIMIT
    zonePageCnt := zoneSize / RT_MM_PAGE_SIZE, zone, array := none, live := [], zones := [], asked := fun _ => 0 }

def allocArray (npages : Nat) : RtSlab :=
  let pages := rtAlign (npages * sizeofMemusage) RT_MM_PAGE_SIZE / RT_MM_PAGE_SIZE
  let (slab, array) := rtSlabPageAlloc slab pages
  { slab with array := array.map fun page => ⟨page, pages⟩ }

/-- `rt_slab_init`; `none` is `RT_NULL`. The array behind `memusage` and the headers are what the memory holds. -/
def rtSlabInit (alignSize sizeofSlab beginAddr size : Nat) (memusage : Nat → Memusage) (zone : Nat → Zone) :
    Except Stop (Option RtSlab) :=
  let startAddr := add32 (rtAlign beginAddr alignSize) sizeofSlab
  let beginAlign := rtAlign startAddr RT_MM_PAGE_SIZE
  let endAlign := rtAlignDown (add32 beginAddr size) RT_MM_PAGE_SIZE
  if endAlign ≤ beginAlign then .ok none
  else
    let npages := (endAlign - beginAlign) / RT_MM_PAGE_SIZE
    -- The assertions of `rt_slab_page_init`.
    if beginAlign = 0 ∨ npages = 0 then .error .assert
    else
      (pageFree 0 npages []).map fun pageList =>
        some (allocArray (emptySlab beginAlign endAlign pageList memusage zone) npages)

inductive Call where
  | alloc (size : Nat)
  | realloc (ptr : Option Nat) (size : Nat)
  | free (ptr : Option Nat)
  deriving DecidableEq

/-- A pointer that a caller may pass. -/
def Passable (ptr : Option Nat) : Prop := ∀ p ∈ ptr, p ∈ slab.live.map Live.ptr

instance Passable.instDecidable : ∀ ptr, Decidable (Passable slab ptr)
  | none => .isTrue nofun
  | some p => decidable_of_iff (p ∈ slab.live.map Live.ptr) (by simp [Passable])

/-- What was asked for at the pointer that a call returns. -/
def ask (size : Nat) (r : RtSlab × Option Nat) : RtSlab :=
  match r.2 with
  | some ptr => { r.1 with asked := Function.update r.1.asked ptr size }
  | none => r.1

def step (slab : RtSlab) : Call → Except Stop RtSlab
  | .alloc size => if size < 2 ^ 32 then (rtSlabAlloc slab size).map (ask size) else .error .refused
  | .realloc ptr size =>
    if size < 2 ^ 32 ∧ Passable slab ptr then (rtSlabRealloc slab ptr size).map (ask size) else .error .refused
  | .free ptr =>
    if Passable slab ptr then
      match ptr with
      | some ptr => rtSlabFree slab ptr
      | none => .ok slab
    else .error .refused

def npages : Nat := (slab.heapEnd - slab.heapStart) / RT_MM_PAGE_SIZE

/-- The pages of a live block, where it is not a chunk of a zone. -/
def Live.run (l : Live) : Option Run :=
  if l.zone = none then some ⟨l.ptr / RT_MM_PAGE_SIZE, l.bytes / RT_MM_PAGE_SIZE⟩ else none

/-- Who has pages: the free runs, the array, the live blocks, the zones. -/
def holders : List Run :=
  slab.pageList ++ slab.array.toList ++ slab.live.filterMap Live.run ++
    slab.zones.map fun z => ⟨z, slab.zonePageCnt⟩

/-- A zone that is in use: in the list of its index where it has chunks to give, and in no other. -/
structure Zone.InUse (slab : RtSlab) (z : Nat) : Prop where
  nfree : (slab.zone z).nfree = (slab.zone z).nmax - 1 - (slab.zone z).uindex + (slab.zone z).freechunk.length
  array : ∀ zi, z ∈ slab.zoneArray zi ↔ zi = (slab.zone z).zoneindex ∧ 0 < (slab.zone z).nfree
  busy : z ∉ slab.zoneFree

/-- A live chunk is in a zone in use, behind its header. -/
def Live.Inside (slab : RtSlab) (l : Live) (z : Nat) : Prop :=
  z ∈ slab.zones ∧ z ∉ slab.zoneFree ∧ z * RT_MM_PAGE_SIZE + sizeofZone ≤ l.ptr ∧
    l.ptr + l.bytes ≤ z * RT_MM_PAGE_SIZE + slab.zoneSize

structure Sound (slab : RtSlab) : Prop where
  /-- Every page of the heap has one holder. -/
  pages : ∀ p, owners (holders slab) p = if p < npages slab then 1 else 0
  /-- The free runs ascend, and no two of them are adjacent. -/
  runs : slab.pageList.Pairwise fun a b => a.page + a.pages < b.page
  zones : ∀ z ∈ slab.zones, (z ∈ slab.zoneFree ∧ ∀ zi, z ∉ slab.zoneArray zi) ∨ Zone.InUse slab z
  lists : slab.zones.Nodup ∧ slab.zoneFree.Nodup ∧ (∀ zi, (slab.zoneArray zi).Nodup) ∧
    (∀ z ∈ slab.zoneFree, z ∈ slab.zones) ∧ ∀ zi, ∀ z ∈ slab.zoneArray zi, z ∈ slab.zones
  inside : ∀ l ∈ slab.live, ∀ z ∈ l.zone, l.Inside slab z
  apart : slab.live.Pairwise fun l l' => l.ptr + l.bytes ≤ l'.ptr ∨ l'.ptr + l'.bytes ≤ l.ptr
  large : ∀ l ∈ slab.live, slab.asked l.ptr ≤ l.bytes
  free : slab.zoneFreeCnt = slab.zoneFree.length ∧ slab.zoneFreeCnt ≤ ZONE_RELEASE_THRESH
  used : slab.used = (slab.live.map Live.bytes).sum

end RtosKernel.RtThread.Slab
