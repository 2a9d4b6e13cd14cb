import RtosKernel.Lib.Runs
import RtosKernel.RtThread.RingblkBufRuns
import RtosKernel.RtThread.RingblkQueue

/-! # When a queue of ring blocks is one range of the buffer

`rt_rbb_blk_queue_get` delivers what its comment promises exactly when the put blocks it meets join up, fit, and
are followed by one more block that ends the queue. -/
namespace RtosKernel.RtThread.RingblkBuf
open Lib.Word Lib.LinkedList Lib.Spans Option
open RtThread.Def RtThread.Service

/-- The blocks of the list that went from `PUT` to `GET`. -/
def moved (rbb rbb' : RtRbb) (bl : List Nat) : List Nat :=
  bl.filter fun i => (rbb.blkSet i).status = .put ∧ (rbb'.blkSet i).status = .get

/-- The bytes of these blocks lie in the buffer. -/
def Inside (rbb : RtRbb) (l : List Nat) : Prop :=
  ∀ i ∈ l, (span rbb i).size ≠ 0 → rbb.buf ≤ (span rbb i).start ∧ (span rbb i).fin ≤ rbb.buf + rbb.bufSize

/-- What a queue is for: the size returned is within the bound and that of the blocks moved, which the queue
counts, and their bytes are one range of the buffer, from `rt_rbb_blk_queue_buf` on, and their contents in
order. -/
structure Delivers (rbb : RtRbb) (queueDataLen : Nat) (bl : List Nat) (r : Walk) : Prop where
  nodes : r.nullNext = false
  le : r.dataTotalSize ≤ queueDataLen
  sum : r.dataTotalSize = sizes rbb (moved rbb r.rbb bl)
  num : moved rbb r.rbb bl ≠ [] → r.queue.blkNum = (moved rbb r.rbb bl).length
  inside : Inside rbb (moved rbb r.rbb bl)
  range : moved rbb r.rbb bl ≠ [] → ∃ start, rtRbbBlkQueueBuf r.rbb r.queue = some start ∧
    ((moved rbb r.rbb bl).map (span rbb)).flatMap Span.bytes = Span.bytes ⟨start, r.dataTotalSize⟩ ∧
    ∀ mem : Nat → UInt8, (Span.bytes ⟨start, r.dataTotalSize⟩).map mem =
      (moved rbb r.rbb bl).flatMap fun i => (span rbb i).bytes.map mem

/-- Behind blocks that are not put, the put blocks `f` and `more` join up inside the buffer and fit,
and the block `b` ends the queue. -/
structure Stretch (rbb : RtRbb) (queueDataLen : Nat) (pre : List Nat) (f : Nat) (more : List Nat) (b : Nat) : Prop where
  skipped : ∀ i ∈ pre, (rbb.blkSet i).status ≠ .put
  put : ∀ i ∈ f :: more, (rbb.blkSet i).status = .put
  rising : Rising rbb (f :: more)
  abut : Abut (span rbb f).start ((f :: more).map (span rbb))
  inside : Inside rbb (f :: more)
  fits : sizes rbb (f :: more) ≤ queueDataLen
  ends : Breaks rbb queueDataLen ((f :: more).getLast (by simp)) (sizes rbb (f :: more)) b

/-- The block list is empty, or has such a stretch with a block behind it. -/
def Gathers (rbb : RtRbb) (queueDataLen : Nat) (bl : List Nat) : Prop :=
  bl = [] ∨ ∃ pre f more b post, bl = pre ++ f :: (more ++ b :: post) ∧ Stretch rbb queueDataLen pre f more b

variable {rbb : RtRbb}

theorem moved_markGet {pre g post : List Nat} (hnd : (pre ++ g ++ post).Nodup)
    (hput : ∀ i ∈ g, (rbb.blkSet i).status = .put) : moved rbb (markGet rbb g) (pre ++ g ++ post) = g := by
  have hout : ∀ i ∉ g, ¬ ((rbb.blkSet i).status = .put ∧ ((markGet rbb g).blkSet i).status = .get) := by
    intro i hi ⟨hp, hg⟩
    simp [markGet, hi, hp] at hg
  obtain ⟨hpg, _, hpost⟩ := List.nodup_append.mp hnd
  obtain ⟨_, _, hpre⟩ := List.nodup_append.mp hpg
  have h1 : moved rbb (markGet rbb g) pre = [] := by
    refine List.filter_eq_nil_iff.mpr fun i hi => ?_
    simpa using hout i fun hg => hpre i hi i hg rfl
  have h2 : moved rbb (markGet rbb g) post = [] := by
    refine List.filter_eq_nil_iff.mpr fun i hi => ?_
    simpa using hout i fun hg => hpost i (List.mem_append_right _ hg) i hi rfl
  have h3 : moved rbb (markGet rbb g) g = g := by
    refine List.filter_eq_self.mpr fun i hi => ?_
    simp [markGet, hi, hput i hi]
  calc moved rbb (markGet rbb g) (pre ++ g ++ post)
      = moved rbb (markGet rbb g) pre ++ moved rbb (markGet rbb g) g ++ moved rbb (markGet rbb g) post := by
        simp only [moved, List.filter_append]
    _ = g := by rw [h1, h2, h3, List.nil_append, List.append_nil]

theorem range_iff {r : Walk} {f : Nat} {more : List Nat}
    (hrbb : r.rbb = markGet rbb (f :: more)) (hq : r.queue.blocks = some f)
    (hsum : r.dataTotalSize = sizes rbb (f :: more)) :
    (∃ start, rtRbbBlkQueueBuf r.rbb r.queue = some start ∧
      ((f :: more).map (span rbb)).flatMap Span.bytes = Span.bytes ⟨start, r.dataTotalSize⟩ ∧
      ∀ mem : Nat → UInt8, (Span.bytes ⟨start, r.dataTotalSize⟩).map mem =
        (f :: more).flatMap fun i => (span rbb i).bytes.map mem) ↔
    Abut (span rbb f).start ((f :: more).map (span rbb)) := by
  have hbuf : rtRbbBlkQueueBuf r.rbb r.queue = some (span rbb f).start := by
    rw [rtRbbBlkQueueBuf, hq, ← span_markGet rbb (f :: more), ← hrbb]
    rfl
  have hbytes : ((f :: more).map (span rbb)).flatMap Span.bytes =
      Span.bytes ⟨(span rbb f).start, r.dataTotalSize⟩ ↔
      Abut (span rbb f).start ((f :: more).map (span rbb)) := by
    rw [hsum]
    exact flatMap_bytes_iff
  constructor
  · rintro ⟨start, hstart, hrange, _⟩
    rw [hbuf] at hstart
    cases hstart
    exact hbytes.mp hrange
  · intro habut
    refine ⟨_, hbuf, hbytes.mpr habut, fun mem => ?_⟩
    rw [← hbytes.mpr habut, List.map_flatMap, List.flatMap_map]

/-- **One call.** A call on well linked lists returns, and it delivers exactly when the blocks on
the list are such a stretch. -/
theorem rtRbbBlkQueueGet_iff {fl bl : List Nat} {len : Nat} (h : Linked rbb fl bl)
    (hlen : len < 2 ^ 32) (q : RtRbbBlkQueue) :
    ∃ r, rtRbbBlkQueueGet rbb len q = some r ∧ (Delivers rbb len bl r ↔ Gathers rbb len bl) := by
  have hnd : bl.Nodup := (List.nodup_append.mp h.nodup).2.1
  obtain ⟨r, hr, hrbb, hq, ht, hn⟩ := rtRbbBlkQueueGet_spec h len q
  refine ⟨r, hr, ?_, ?_⟩
  · intro hd
    by_cases hbl : bl = []
    · exact .inl hbl
    have hruns : ¬ RunsOut rbb len bl := fun ho => by
      have := hn.mpr ⟨hbl, ho⟩
      rw [hd.nodes] at this
      cases this
    rcases gather_cases rbb len bl with ⟨_, _, ho⟩ | ⟨pre, f, l, rfl, hpre, hf⟩
    · exact absurd ho hruns
    obtain ⟨hg, ho⟩ := gather_eq (l := l) len hf hpre
    obtain ⟨rest, hl, hput, hrise, hend⟩ := follow_split rbb len l f
      (add32 0 (rbb.blkSet f).size)
    generalize hmore : follow rbb len f (add32 0 (rbb.blkSet f).size) l = more at *
    -- something is left behind the blocks taken
    obtain ⟨b, post, rfl⟩ : ∃ b post, rest = b :: post := by
      cases rest with
      | nil => exact absurd (ho.mpr (by rw [hl, List.append_nil])) hruns
      | cons b post => exact ⟨b, post, rfl⟩
    have hputs : ∀ i ∈ f :: more, (rbb.blkSet i).status = .put := List.forall_mem_cons.mpr ⟨hf, hput⟩
    have hsplit : pre ++ f :: l = pre ++ (f :: more) ++ b :: post := by rw [hl]; simp
    rw [hg] at hrbb hq ht
    have hmoved : moved rbb r.rbb (pre ++ f :: l) = f :: more := by
      rw [hrbb, hsplit]
      exact moved_markGet (hsplit ▸ hnd) hputs
    have hsum := hd.sum
    have hinside := hd.inside
    have hrange := hd.range
    rw [hmoved] at hsum hinside hrange
    have hq := hq (by simp)
    refine .inr ⟨pre, f, more, b, post, by rw [hl], hpre, hputs, hrise, ?_, hinside, ?_, ?_⟩
    · exact (range_iff hrbb (by rw [hq]; rfl) hsum).mp (hrange (by simp))
    · exact hsum ▸ hd.le
    · have hbreak := hend b post rfl
      rw [← hsum, ht]
      exact hbreak
  · rintro (rfl | ⟨pre, f, more, b, post, rfl, hs⟩)
    · -- nothing is done with an empty list
      have hnone : r.nullNext = false := by
        cases hnull : r.nullNext with
        | false => rfl
        | true => exact absurd rfl (hn.mp hnull).1
      have ht : r.dataTotalSize = 0 := ht
      exact ⟨hnone, by omega, ht, fun hne => absurd rfl hne, by simp [Inside, moved], fun hne => absurd rfl hne⟩
    · have hsize : sizes rbb (f :: more) < 2 ^ 32 := Nat.lt_of_le_of_lt hs.fits hlen
      have hf := hs.put f (List.mem_cons_self ..)
      obtain ⟨hg, ho⟩ := gather_eq (l := more ++ b :: post) len hf hs.skipped
      have hfirst : add32 0 (rbb.blkSet f).size = (rbb.blkSet f).size := by
        rw [sizes_cons] at hsize
        exact (add32_of_lt (by omega)).trans (Nat.zero_add _)
      have hfollow : follow rbb len f (add32 0 (rbb.blkSet f).size) (more ++ b :: post) = more := by
        rw [hfirst]
        refine follow_eq hlen (fun i hi => hs.put i (List.mem_cons_of_mem _ hi)) hs.rising ?_ ?_
        · exact sizes_cons rbb f more ▸ hs.fits
        · exact sizes_cons rbb f more ▸ hs.ends
      rw [hfollow] at hg ho
      rw [hg] at hrbb hq ht
      rw [addSizes_of_lt (by omega), Nat.zero_add] at ht
      have hmoved : moved rbb r.rbb (pre ++ f :: (more ++ b :: post)) = f :: more := by
        have hsplit : pre ++ f :: (more ++ b :: post) = pre ++ (f :: more) ++ b :: post := by simp
        rw [hrbb, hsplit]
        exact moved_markGet (hsplit ▸ hnd) hs.put
      have hq := hq (by simp)
      refine ⟨?_, ht ▸ hs.fits, ?_, ?_, ?_, ?_⟩
      · cases hnull : r.nullNext with
        | false => rfl
        | true => simpa using ho.mp (hn.mp hnull).2
      · rw [hmoved, ht]
      · rw [hmoved, hq]
        exact fun _ => rfl
      · rw [hmoved]
        exact hs.inside
      · rw [hmoved]
        exact fun _ => (range_iff hrbb (by rw [hq]; rfl) ht).mpr hs.abut

/-! ## Whole runs -/

/-- The two lists are well linked, and a descriptor in use is on the block list. A descriptor may be
on neither list. -/
def Threaded (rbb : RtRbb) : Prop :=
  ∃ fl bl, Linked rbb fl bl ∧ ∀ i < rbb.blkMaxNum, (rbb.blkSet i).status ≠ .unused → i ∈ bl

/-- The states reached from `start` by the calls of `ringblk_buf.c`, with allocations that find no
space among them. -/
inductive Filled (start : RtRbb) : RtRbb → Prop
  | init : Filled start start
  | call {rbb rbb' : RtRbb} {op : Op} : Filled start rbb → Called rbb op → exec rbb op = some rbb' →
      Filled start rbb'
  | queueGet {rbb : RtRbb} {queueDataLen : Nat} {blkQueue : RtRbbBlkQueue} {r : Walk} : Filled start rbb →
      queueDataLen < 2 ^ 32 → rtRbbBlkQueueGet rbb queueDataLen blkQueue = some r → Filled start r.rbb

theorem Inv.threaded (h : Inv rbb) : Threaded rbb := by
  obtain ⟨_, fl, bl, hl, _⟩ := h
  exact ⟨fl, bl, hl.linked, fun _ => hl.mem_blks⟩

theorem place_threaded {fl bl : List Nat} {new buf blkSize : Nat} (h : Linked rbb fl bl)
    (hnew : new ∉ fl ++ bl) (hlt : new < rbb.blkMaxNum)
    (hused : ∀ i < rbb.blkMaxNum, (rbb.blkSet i).status ≠ .unused → i ∈ bl) :
    Threaded (place rbb new buf blkSize).1 := by
  refine ⟨fl, bl ++ [new], place_linked h hnew hlt, ?_⟩
  intro i hi hs
  by_cases he : i = new
  · simp [he]
  · have hsame : (place rbb new buf blkSize).1.blkSet i = rbb.blkSet i := by
      simp [place, listAppend, Function.update_of_ne he]
    rw [hsame] at hs
    exact List.mem_append_left _ (hused i hi hs)

theorem rtRbbBlkAlloc_threaded {blkSize : Nat} (h : Threaded rbb) (hs : blkSize < 2 ^ 24) :
    ∃ r, rtRbbBlkAlloc rbb blkSize = some r ∧ Threaded r.1 := by
  obtain ⟨fl, bl, hl, hused⟩ := h
  cases fl with
  | nil =>
    refine ⟨(rbb, none), ?_, [], bl, hl, hused⟩
    simp only [rtRbbBlkAlloc, rtAssert_of hs, findEmptyBlkInSet_nil hl, bind, bind_some]
  | cons new fl =>
    obtain ⟨next, hfind, ht, hnext⟩ := findEmptyBlkInSet_cons hl
    have hnew : new ∉ fl ++ bl := (List.nodup_cons.mp hl.nodup).1
    have hlt : new < rbb.blkMaxNum := hl.lt new (by simp)
    -- whichever branch is taken, the block is placed or its descriptor is on neither list
    have hplaced : ∀ buf, Threaded (place { rbb with next := next } new buf blkSize).1 :=
      fun buf => place_threaded ht hnew hlt hused
    have hlost : Threaded { rbb with next := next } := ⟨fl, bl, ht, hused⟩
    simp only [rtRbbBlkAlloc, rtAssert_of hs, hfind, hnext, bind, bind_some]
    cases bl with
    | nil =>
      have hempty : rbb.next .blkList = none := hl.blks
      rw [hempty]
      exact ⟨_, rfl, hplaced _⟩
    | cons first rest =>
      have hfirst : rbb.next .blkList = some (.blk first) := hl.blks.1
      obtain ⟨last, hlast⟩ : ∃ last, (first :: rest).getLast? = some last :=
        ⟨_, List.getLast?_eq_getLast_of_ne_nil (by simp)⟩
      have htail : entry rbb.tail = some last := by rw [tail_of_getLast hl.tail hlast]; rfl
      have hentry : entry (.blk first) = some first := rfl
      simp only [hfirst, hentry, htail, bind_some]
      split
      · split
        · exact ⟨_, rfl, hplaced _⟩
        · split
          · exact ⟨_, rfl, hplaced _⟩
          · exact ⟨_, rfl, hlost⟩
      · split
        · exact ⟨_, rfl, hplaced _⟩
        · exact ⟨_, rfl, hlost⟩

theorem setStatus_threaded {i : Nat} {st : RtRbbStatus} (h : Threaded rbb)
    (hi : i < rbb.blkMaxNum) (hs : (rbb.blkSet i).status ≠ .unused) (hst : st ≠ .unused) :
    Threaded { rbb with
      blkSet := Function.update rbb.blkSet i { rbb.blkSet i with status := st } } := by
  obtain ⟨fl, bl, hl, hused⟩ := h
  refine ⟨fl, bl, setStatus_linked hl (hused i hi hs) hst, ?_⟩
  intro j hj hsj
  by_cases he : j = i
  · exact he ▸ hused i hi hs
  · simp only [Function.update_of_ne he] at hsj
    exact hused j hj hsj

theorem rtRbbBlkGet_threaded (h : Threaded rbb) : ∃ r, rtRbbBlkGet rbb = some r ∧ Threaded r.1 := by
  obtain ⟨fl, bl, hl, hused⟩ := h
  rcases findPut_mem hl.blks (Nat.lt_succ_of_le hl.length_le) with hn | ⟨i, hi, he⟩
  · exact ⟨(rbb, none), by simp only [rtRbbBlkGet, hn, bind, bind_some], fl, bl, hl, hused⟩
  · refine ⟨(_, some i), by simp only [rtRbbBlkGet, he, bind, bind_some]; rfl, ?_⟩
    exact setStatus_threaded ⟨fl, bl, hl, hused⟩ (hl.lt i (List.mem_append_right _ hi)) (hl.inUse i hi)
      (by decide)

theorem rtRbbBlkFree_threaded {block : Nat} (h : Threaded rbb) (hb : block < rbb.blkMaxNum)
    (hs : (rbb.blkSet block).status ≠ .unused) : ∃ r, rtRbbBlkFree rbb block = some r ∧ Threaded r := by
  obtain ⟨fl, bl, hl, hused⟩ := h
  obtain ⟨pre, post, rfl⟩ := List.append_of_mem (hused block hb hs)
  obtain ⟨next, tail, hfree, ht⟩ := rtRbbBlkFree_linked hl
  refine ⟨_, hfree, block :: fl, pre ++ post, ht, ?_⟩
  intro i hi hsi
  have he : i ≠ block := fun e => by simp [e] at hsi
  simp only [Function.update_of_ne he] at hsi
  have hmem := hused i hi hsi
  simp only [List.mem_append, List.mem_cons] at hmem ⊢
  tauto

theorem markGet_threaded (l : List Nat) (h : Threaded rbb)
    (hl : ∀ i ∈ l, (rbb.blkSet i).status = .put) : Threaded (markGet rbb l) := by
  have hsame : ∀ i, ((markGet rbb l).blkSet i).status = .unused ↔ (rbb.blkSet i).status = .unused := by
    intro i
    by_cases hi : i ∈ l
    · simp [markGet, hi, hl i hi]
    · simp [markGet, hi]
  obtain ⟨fl, bl, hlink, hused⟩ := h
  exact ⟨fl, bl, ⟨hlink.free, hlink.blks, hlink.nodup, hlink.lt, fun i hi => (hsame i).mpr (hlink.unused i hi),
    fun i hi hu => hlink.inUse i hi ((hsame i).mp hu), hlink.tail⟩,
    fun i hi hs => hused i hi fun hu => hs ((hsame i).mpr hu)⟩

theorem gather_put (rbb : RtRbb) (len : Nat) (bl : List Nat) :
    ∀ i ∈ gather rbb len bl, (rbb.blkSet i).status = .put := by
  rcases gather_cases rbb len bl with ⟨_, hg, _⟩ | ⟨pre, f, l, rfl, hpre, hf⟩
  · simp [hg]
  · obtain ⟨_, _, hput, _⟩ := follow_split rbb len l f (add32 0 (rbb.blkSet f).size)
    rw [(gather_eq len hf hpre).1]
    exact List.forall_mem_cons.mpr ⟨hf, hput⟩

theorem Filled.threaded {start rbb : RtRbb} (h0 : Threaded start) (h : Filled start rbb) : Threaded rbb := by
  induction h with
  | init => exact h0
  | @call rbb rbb' op _ hc he ih =>
    cases op with
    | alloc blkSize =>
      obtain ⟨r, hr, ht⟩ := rtRbbBlkAlloc_threaded ih hc
      have he : (rtRbbBlkAlloc rbb blkSize).map Prod.fst = some rbb' := he
      rw [hr] at he
      exact some.inj he ▸ ht
    | put block =>
      have he : rtRbbBlkPut rbb block = some rbb' := he
      simp only [rtRbbBlkPut, rtAssert_of hc.2, bind, bind_some] at he
      exact some.inj he ▸ setStatus_threaded ih hc.1 (by rw [hc.2]; decide) (by decide)
    | get =>
      obtain ⟨r, hr, ht⟩ := rtRbbBlkGet_threaded ih
      have he : (rtRbbBlkGet rbb).map Prod.fst = some rbb' := he
      rw [hr] at he
      exact some.inj he ▸ ht
    | free block =>
      obtain ⟨r, hr, ht⟩ := rtRbbBlkFree_threaded ih hc.1 hc.2
      have he : rtRbbBlkFree rbb block = some rbb' := he
      rw [hr] at he
      exact some.inj he ▸ ht
  | @queueGet rbb len q r _ _ he ih =>
    obtain ⟨fl, bl, hl, _⟩ := id ih
    obtain ⟨r', hr, hrbb, _⟩ := rtRbbBlkQueueGet_spec hl len q
    rw [he] at hr
    rw [some.inj hr, hrbb]
    exact markGet_threaded _ ih (gather_put rbb len bl)

/-- **A queue is one range of the buffer exactly when the put blocks join up, fit and end before the list
does**: in every state the calls reach, and for every bound. -/
theorem rtRbbBlkQueueGet_delivers_iff (buf : Buffer) (blockSet : Nat → RtRbbBlk) (n : Nat) (rbb : RtRbb)
    (h : Filled (rtRbbInit buf blockSet n) rbb) (queueDataLen : Nat) (hlen : queueDataLen < 2 ^ 32)
    (blkQueue : RtRbbBlkQueue) :
    ∃ bl, Chain rbb.next (rbb.next .blkList) (bl.map .blk) ∧
      ∃ r, rtRbbBlkQueueGet rbb queueDataLen blkQueue = some r ∧
        (Delivers rbb queueDataLen bl r ↔ Gathers rbb queueDataLen bl) := by
  obtain ⟨fl, bl, hl, _⟩ := h.threaded (rtRbbInit_inv buf blockSet n).threaded
  exact ⟨bl, hl.blks, rtRbbBlkQueueGet_iff hl hlen blkQueue⟩

/-- Two blocks of one byte, the first of them put: the queue is that one, and the second ends it. -/
theorem rtRbbBlkQueueGet_delivers_small :
    ∃ rbb, Filled (rtRbbInit smallBuffer (fun _ => ⟨.unused, 0, 0⟩) 2) rbb ∧
      ∃ bl r, rtRbbBlkQueueGet rbb 4 ⟨none, 0⟩ = some r ∧ Delivers rbb 4 bl r := by
  have hc (r : RtRbb) : Called r (.alloc 1) := show 1 < 2 ^ 24 by decide
  have hr3 : Filled smallRbb _ := .call (.call (.call .init (hc _) rfl) (hc _) rfl)
    (show Called _ (.put 1) from ⟨by decide, rfl⟩) rfl
  obtain ⟨bl, hb, r, hr, hiff⟩ := rtRbbBlkQueueGet_delivers_iff smallBuffer (fun _ => ⟨.unused, 0, 0⟩) 2 _
    hr3 4 (by decide) ⟨none, 0⟩
  refine ⟨_, hr3, bl, r, hr, hiff.mpr (.inr ⟨[], 1, [], 0, [], ?_, ?_⟩)⟩
  · have hmap : bl.map Node.blk = [.blk 1, .blk 0] :=
      hb.det (chain_cons.mpr ⟨rfl, chain_cons.mpr ⟨rfl, chain_nil.mpr rfl⟩⟩)
    exact blk_injective.list_map hmap
  · refine ⟨by simp, by simp, List.isChain_singleton _, ⟨.inr rfl, trivial⟩, ?_, by decide, .inl (by decide)⟩
    intro i hi _
    rw [List.mem_singleton.mp hi]
    exact ⟨by decide, by decide⟩

/-- **The walk takes the next of `RT_NULL`.** With one block, which is put, the pointer that is one
node ahead is null when it is advanced. -/
theorem rtRbbBlkQueueGet_reads_null :
    ∃ rbb, Filled (rtRbbInit smallBuffer (fun _ => ⟨.unused, 0, 0⟩) 2) rbb ∧
      ∃ r, rtRbbBlkQueueGet rbb 4 ⟨none, 0⟩ = some r ∧ r.nullNext = true ∧ ∀ bl, ¬ Delivers rbb 4 bl r := by
  have hc1 : Called smallRbb (.alloc 3) := show 3 < 2 ^ 24 by decide
  refine ⟨_, .call (.call .init hc1 rfl) (show Called _ (.put 1) from ⟨by decide, rfl⟩) rfl, _, rfl,
    Lib.Runs.and_then rfl fun hnull bl hd => ?_⟩
  rw [hd.nodes] at hnull
  cases hnull

end RtosKernel.RtThread.RingblkBuf
