import RtosKernel.RtThread.RingblkBufInvariant

/-! # Queues of ring blocks (`ringblk_buf.c`)

`rt_rbb_blk_queue_get` walks the block list with a pointer that is one node ahead. The pointer is advanced
before the loop tests whether there is a node, so at the end of the list it takes the next of `RT_NULL`; a
`Walk` records that. -/
namespace RtosKernel.RtThread.RingblkBuf
open Lib.Word Lib.LinkedList Lib.Spans
open RtThread.Def RtThread.Service
open Function (update update_of_ne)

structure RtRbbBlkQueue where
  blocks : Option Nat
  blkNum : Nat
  deriving DecidableEq, Repr

/-- The ring buffer, the queue and the variables of `rt_rbb_blk_queue_get`; `nullNext` says that it
took the next of `RT_NULL`. -/
structure Walk where
  rbb : RtRbb
  queue : RtRbbBlkQueue
  lastBlock : Option Nat
  dataTotalSize : Nat
  nullNext : Bool

/-- The conditions under which a block ends the queue: it is not put, it lies before the last
block, or it does not fit. -/
def Breaks (rbb : RtRbb) (queueDataLen last dataTotalSize block : Nat) : Prop :=
  (rbb.blkSet block).status ≠ .put ∨ (rbb.blkSet last).buf > (rbb.blkSet block).buf ∨
    add32 dataTotalSize (rbb.blkSet block).size > queueDataLen

instance (rbb : RtRbb) (queueDataLen last dataTotalSize block : Nat) :
    Decidable (Breaks rbb queueDataLen last dataTotalSize block) :=
  inferInstanceAs (Decidable (_ ∨ _ ∨ _))

/-- The lines the loop body ends with. -/
def takeBlock (s : Walk) (block : Nat) : Walk :=
  { s with
    rbb := { s.rbb with
      blkSet := update s.rbb.blkSet block { s.rbb.blkSet block with status := .get } }
    queue := { s.queue with blkNum := s.queue.blkNum + 1 }
    lastBlock := some block
    dataTotalSize := add32 s.dataTotalSize (s.rbb.blkSet block).size }

/-- The loop body; `none` is its `break`. -/
def queueRound (queueDataLen : Nat) (s : Walk) (block : Nat) : Option Walk :=
  match s.lastBlock with
  | none =>
    if (s.rbb.blkSet block).status = .put then
      some (takeBlock { s with queue := ⟨some block, 0⟩ } block)
    else some s
  | some last =>
    if Breaks s.rbb queueDataLen last s.dataTotalSize block then none else some (takeBlock s block)

/-- The loop of `rt_rbb_blk_queue_get` with its variables `node` and `tmp`. -/
def queueLoop (queueDataLen : Nat) : Nat → Walk → Option Node → Option Node → Option Walk
  | 0, _, _, _ => none
  | _ + 1, s, none, _ => some s
  | fuel + 1, s, some node, tmp => do
    let block ← entry node
    match queueRound queueDataLen s block with
    | none => some s
    | some s =>
      match tmp with
      -- `node` becomes null, and `tmp` is read from it
      | none => queueLoop queueDataLen fuel { s with nullNext := true } none none
      | some node => queueLoop queueDataLen fuel s (some node) (s.rbb.next node)

def rtRbbBlkQueueGet (rbb : RtRbb) (queueDataLen : Nat) (blkQueue : RtRbbBlkQueue) : Option Walk :=
  match rbb.next .blkList with
  | none => some ⟨rbb, blkQueue, none, 0, false⟩
  | some node =>
    queueLoop queueDataLen (rbb.blkMaxNum + 1) ⟨rbb, blkQueue, none, 0, false⟩ (some node)
      (rbb.next node)

def rtRbbBlkQueueBuf (rbb : RtRbb) (blkQueue : RtRbbBlkQueue) : Option Nat :=
  blkQueue.blocks.map fun block => (rbb.blkSet block).buf

/-! ## The blocks the walk takes -/

/-- The blocks of a list that follow `last` in the queue. -/
def follow (rbb : RtRbb) (queueDataLen : Nat) : Nat → Nat → List Nat → List Nat
  | _, _, [] => []
  | last, total, block :: l =>
    if Breaks rbb queueDataLen last total block then []
    else block :: follow rbb queueDataLen block (add32 total (rbb.blkSet block).size) l

/-- The first block that is put, and those that follow it. -/
def gather (rbb : RtRbb) (queueDataLen : Nat) : List Nat → List Nat
  | [] => []
  | block :: l =>
    if (rbb.blkSet block).status = .put then
      block :: follow rbb queueDataLen block (add32 0 (rbb.blkSet block).size) l
    else gather rbb queueDataLen l

/-- The status of these blocks is `GET`. -/
def markGet (rbb : RtRbb) (l : List Nat) : RtRbb :=
  { rbb with blkSet := fun i => if i ∈ l then { rbb.blkSet i with status := .get } else rbb.blkSet i }

/-- The sizes of the blocks, added up in 32 bits. -/
def addSizes (rbb : RtRbb) : Nat → List Nat → Nat
  | total, [] => total
  | total, block :: l => addSizes rbb (add32 total (rbb.blkSet block).size) l

theorem markGet_nil (rbb : RtRbb) : markGet rbb [] = rbb := by simp [markGet]

theorem markGet_cons (rbb : RtRbb) (i : Nat) (l : List Nat) :
    markGet { rbb with
      blkSet := update rbb.blkSet i { rbb.blkSet i with status := .get } } l =
    markGet rbb (i :: l) := by
  unfold markGet
  congr 1
  funext j
  by_cases he : j = i
  · simp [he]
  · simp [he]

theorem span_markGet (rbb : RtRbb) (l : List Nat) : span (markGet rbb l) = span rbb := by
  funext i
  simp only [span, markGet]
  split <;> rfl

variable {rbb : RtRbb}

theorem breaks_mark {len last total i b : Nat} {st : RtRbbStatus} (hb : b ≠ i) :
    Breaks { rbb with
      blkSet := update rbb.blkSet i { rbb.blkSet i with status := st } } len last total b ↔
    Breaks rbb len last total b := by
  have hbuf : (update rbb.blkSet i { rbb.blkSet i with status := st } last).buf = (rbb.blkSet last).buf := by
    by_cases he : last = i
    · simp [he]
    · rw [update_of_ne he]
  simp only [Breaks, update_of_ne hb, hbuf]

theorem follow_mark {len i : Nat} {st : RtRbbStatus} : ∀ {l : List Nat} {last total : Nat},
    i ∉ l → follow { rbb with
      blkSet := update rbb.blkSet i { rbb.blkSet i with status := st } } len last total l =
    follow rbb len last total l
  | [], _, _, _ => rfl
  | b :: l, last, total, hi => by
    have hb : b ≠ i := fun e => hi (by simp [e])
    have hl : i ∉ l := fun hm => hi (List.mem_cons_of_mem _ hm)
    simp only [follow, breaks_mark hb, update_of_ne hb, follow_mark hl]

theorem addSizes_mark {i : Nat} {st : RtRbbStatus} : ∀ {l : List Nat} {total : Nat},
    addSizes { rbb with
      blkSet := update rbb.blkSet i { rbb.blkSet i with status := st } } total l =
    addSizes rbb total l
  | [], _ => rfl
  | b :: l, total => by
    have hsize : (update rbb.blkSet i { rbb.blkSet i with status := st } b).size =
        (rbb.blkSet b).size := by
      by_cases he : b = i
      · simp [he]
      · rw [update_of_ne he]
    simp only [addSizes, hsize, addSizes_mark]

/-- The blocks run out before one ends the queue. -/
def RunsOut (rbb : RtRbb) (queueDataLen : Nat) : List Nat → Prop
  | [] => True
  | block :: l =>
    if (rbb.blkSet block).status = .put then
      follow rbb queueDataLen block (add32 0 (rbb.blkSet block).size) l = l
    else RunsOut rbb queueDataLen l

theorem queueLoop_step {len fuel b : Nat} {l : List Nat} {s s₁ : Walk}
    (hc : Chain s.rbb.next (s.rbb.next (.blk b)) (l.map .blk)) (hround : queueRound len s b = some s₁) :
    queueLoop len (fuel + 1) s (some (.blk b)) (s.rbb.next (.blk b)) =
      queueLoop len fuel { s₁ with nullNext := s₁.nullNext || l.isEmpty } (s.rbb.next (.blk b))
        ((s.rbb.next (.blk b)).bind s₁.rbb.next) := by
  cases l with
  | nil =>
    have hnone : s.rbb.next (.blk b) = none := hc
    simp [queueLoop, entry, hround, hnone]
  | cons c l =>
    have hsome : s.rbb.next (.blk b) = some (.blk c) := hc.1
    simp [queueLoop, entry, hround, hsome]

/-- The loop once it has a first block: it takes what follows, and gets to the null pointer when
that is all there is. -/
theorem queueLoop_follow (len : Nat) : ∀ {l : List Nat} {last fuel : Nat} {node : Option Node} {s : Walk},
    Chain s.rbb.next node (l.map .blk) → l.Nodup → s.lastBlock = some last → l.length < fuel →
    ∃ r, queueLoop len fuel s node (node.bind s.rbb.next) = some r ∧
      r.rbb = markGet s.rbb (follow s.rbb len last s.dataTotalSize l) ∧
      r.queue = ⟨s.queue.blocks, s.queue.blkNum + (follow s.rbb len last s.dataTotalSize l).length⟩ ∧
      r.dataTotalSize = addSizes s.rbb s.dataTotalSize (follow s.rbb len last s.dataTotalSize l) ∧
      (r.nullNext = true ↔ s.nullNext = true ∨ l ≠ [] ∧ follow s.rbb len last s.dataTotalSize l = l)
  | [], last, fuel + 1, node, s, hc, _, _, _ => by
    have hnode : node = none := hc
    subst hnode
    exact ⟨s, rfl, (markGet_nil _).symm, rfl, rfl, by simp⟩
  | b :: l, last, fuel + 1, node, s, hc, hnd, hlast, hf => by
    obtain ⟨rfl, hrest⟩ : node = some (.blk b) ∧ Chain s.rbb.next (s.rbb.next (.blk b)) (l.map .blk) := hc
    obtain ⟨hbl, hnd⟩ := List.nodup_cons.mp hnd
    have hlen : l.length < fuel := Nat.lt_of_succ_lt_succ hf
    by_cases hbr : Breaks s.rbb len last s.dataTotalSize b
    · refine ⟨s, ?_, ?_, ?_, ?_, ?_⟩
      · simp [queueLoop, entry, queueRound, hlast, hbr]
      · simp [follow, hbr, markGet_nil]
      · simp [follow, hbr]
      · simp [follow, hbr, addSizes]
      · simp [follow, hbr]
    · have hround : queueRound len s b = some (takeBlock s b) := by simp [queueRound, hlast, hbr]
      have hfollow : follow s.rbb len last s.dataTotalSize (b :: l) =
          b :: follow s.rbb len b (add32 s.dataTotalSize (s.rbb.blkSet b).size) l := by
        simp only [follow, if_neg hbr]
      have hsame : follow (takeBlock s b).rbb len b (takeBlock s b).dataTotalSize l =
          follow s.rbb len b (add32 s.dataTotalSize (s.rbb.blkSet b).size) l := follow_mark hbl
      obtain ⟨r, hr, hrbb, hq, ht, hn⟩ := queueLoop_follow len
        (s := { takeBlock s b with nullNext := s.nullNext || l.isEmpty }) hrest hnd rfl hlen
      rw [hsame] at hrbb hq ht hn
      refine ⟨r, (queueLoop_step hrest hround).trans hr, ?_, ?_, ?_, ?_⟩
      · rw [hrbb, hfollow]
        exact markGet_cons s.rbb b _
      · rw [hq, hfollow, List.length_cons, Nat.add_comm _ 1, ← Nat.add_assoc]
        rfl
      · rw [ht, hfollow, addSizes]
        exact addSizes_mark
      · rw [hn, hfollow]
        cases l with
        | nil => simp [follow]
        | cons c l => simp

theorem queueLoop_gather (len : Nat) : ∀ {l : List Nat} {fuel : Nat} {node : Option Node} {s : Walk},
    Chain s.rbb.next node (l.map .blk) → l.Nodup → s.lastBlock = none → s.dataTotalSize = 0 →
    l.length < fuel →
    ∃ r, queueLoop len fuel s node (node.bind s.rbb.next) = some r ∧
      r.rbb = markGet s.rbb (gather s.rbb len l) ∧
      (gather s.rbb len l ≠ [] → r.queue = ⟨(gather s.rbb len l).head?, (gather s.rbb len l).length⟩) ∧
      r.dataTotalSize = addSizes s.rbb 0 (gather s.rbb len l) ∧
      (r.nullNext = true ↔ s.nullNext = true ∨ l ≠ [] ∧ RunsOut s.rbb len l)
  | [], fuel + 1, node, s, hc, _, _, ht, _ => by
    have hnode : node = none := hc
    subst hnode
    exact ⟨s, rfl, (markGet_nil _).symm, fun h => absurd rfl h, ht, by simp⟩
  | b :: l, fuel + 1, node, s, hc, hnd, hlast, ht0, hf => by
    obtain ⟨rfl, hrest⟩ : node = some (.blk b) ∧ Chain s.rbb.next (s.rbb.next (.blk b)) (l.map .blk) := hc
    obtain ⟨hbl, hnd⟩ := List.nodup_cons.mp hnd
    have hlen : l.length < fuel := Nat.lt_of_succ_lt_succ hf
    by_cases hput : (s.rbb.blkSet b).status = .put
    · -- the first put block: the loop goes on with what follows it
      have hround : queueRound len s b = some (takeBlock { s with queue := ⟨some b, 0⟩ } b) := by
        simp [queueRound, hlast, hput]
      have hgather : gather s.rbb len (b :: l) = b :: follow s.rbb len b (add32 0 (s.rbb.blkSet b).size) l := by
        simp only [gather, if_pos hput]
      have hsame : follow (takeBlock s b).rbb len b (takeBlock s b).dataTotalSize l =
          follow s.rbb len b (add32 0 (s.rbb.blkSet b).size) l := by
        rw [← ht0]
        exact follow_mark hbl
      obtain ⟨r, hr, hrbb, hq, ht, hn⟩ := queueLoop_follow len
        (s := { takeBlock { s with queue := ⟨some b, 0⟩ } b with nullNext := s.nullNext || l.isEmpty })
        hrest hnd rfl hlen
      have hsame' : follow (takeBlock { s with queue := ⟨some b, 0⟩ } b).rbb len b
          (takeBlock { s with queue := ⟨some b, 0⟩ } b).dataTotalSize l =
          follow s.rbb len b (add32 0 (s.rbb.blkSet b).size) l := hsame
      rw [hsame'] at hrbb hq ht hn
      refine ⟨r, (queueLoop_step hrest hround).trans hr, ?_, ?_, ?_, ?_⟩
      · rw [hrbb, hgather]
        exact markGet_cons s.rbb b _
      · intro _
        rw [hq, hgather, List.length_cons, List.head?_cons, Nat.add_comm _ 1]
        rfl
      · rw [ht, hgather, addSizes, ← ht0]
        exact addSizes_mark
      · rw [hn, RunsOut, if_pos hput]
        cases l with
        | nil => simp [follow]
        | cons c l => simp
    · have hround : queueRound len s b = some s := by simp [queueRound, hlast, hput]
      obtain ⟨r, hr, hrbb, hq, ht, hn⟩ := queueLoop_gather len
        (s := { s with nullNext := s.nullNext || l.isEmpty }) hrest hnd hlast ht0 hlen
      have hgather : gather s.rbb len (b :: l) = gather s.rbb len l := by simp only [gather, if_neg hput]
      rw [hgather]
      refine ⟨r, (queueLoop_step hrest hround).trans hr, hrbb, hq, ht, ?_⟩
      rw [hn, RunsOut, if_neg hput]
      cases l with
      | nil => simp [RunsOut]
      | cons c l => simp

/-- **What `rt_rbb_blk_queue_get` does.** It marks the blocks of `gather` and adds up their sizes,
and it takes the next of `RT_NULL` when the blocks run out before one ends the queue. -/
theorem rtRbbBlkQueueGet_spec {fl bl : List Nat} (h : Linked rbb fl bl) (len : Nat) (q : RtRbbBlkQueue) :
    ∃ r, rtRbbBlkQueueGet rbb len q = some r ∧
      r.rbb = markGet rbb (gather rbb len bl) ∧
      (gather rbb len bl ≠ [] → r.queue = ⟨(gather rbb len bl).head?, (gather rbb len bl).length⟩) ∧
      r.dataTotalSize = addSizes rbb 0 (gather rbb len bl) ∧
      (r.nullNext = true ↔ bl ≠ [] ∧ RunsOut rbb len bl) := by
  have hnd : bl.Nodup := (List.nodup_append.mp h.nodup).2.1
  obtain ⟨r, hr, hspec⟩ := queueLoop_gather len (s := ⟨rbb, q, none, 0, false⟩) h.blks hnd rfl rfl
    (Nat.lt_succ_of_le h.length_le)
  refine ⟨r, ?_, ?_⟩
  · unfold rtRbbBlkQueueGet
    cases hfirst : rbb.next .blkList with
    | none =>
      rw [hfirst] at hr
      exact hr
    | some n =>
      rw [hfirst] at hr
      exact hr
  · simpa using hspec

/-! ## Where the queue begins and ends -/

/-- Each block lies no lower than the one before it. -/
abbrev Rising (rbb : RtRbb) (l : List Nat) : Prop := l.IsChain fun i j => (rbb.blkSet i).buf ≤ (rbb.blkSet j).buf

/-- The sizes of the blocks, added up without a bound. -/
def sizes (rbb : RtRbb) (l : List Nat) : Nat := ((l.map (span rbb)).map Span.size).sum

theorem sizes_cons (rbb : RtRbb) (i : Nat) (l : List Nat) :
    sizes rbb (i :: l) = (rbb.blkSet i).size + sizes rbb l := by simp [sizes, span]

theorem addSizes_of_lt : ∀ {l : List Nat} {total : Nat}, total + sizes rbb l < 2 ^ 32 →
    addSizes rbb total l = total + sizes rbb l
  | [], total, _ => by simp [addSizes, sizes]
  | i :: l, total, h => by
    rw [sizes_cons] at h ⊢
    rw [addSizes, add32_of_lt (by omega), addSizes_of_lt (by omega)]
    omega

theorem follow_split (rbb : RtRbb) (len : Nat) : ∀ (l : List Nat) (last total : Nat),
    ∃ rest, l = follow rbb len last total l ++ rest ∧
      (∀ i ∈ follow rbb len last total l, (rbb.blkSet i).status = .put) ∧
      Rising rbb (last :: follow rbb len last total l) ∧
      ∀ b post, rest = b :: post → Breaks rbb len
        ((last :: follow rbb len last total l).getLast (by simp))
        (addSizes rbb total (follow rbb len last total l)) b
  | [], last, total => ⟨[], rfl, by simp [follow], List.isChain_singleton _, by simp⟩
  | c :: l, last, total => by
    by_cases hbr : Breaks rbb len last total c
    · have hnil : follow rbb len last total (c :: l) = [] := by simp only [follow, if_pos hbr]
      rw [hnil]
      refine ⟨c :: l, rfl, by simp, List.isChain_singleton _, ?_⟩
      intro b post he
      cases he
      exact hbr
    · have hcons : follow rbb len last total (c :: l) =
          c :: follow rbb len c (add32 total (rbb.blkSet c).size) l := by simp only [follow, if_neg hbr]
      obtain ⟨rest, hl, hput, hrise, hend⟩ := follow_split rbb len l c
        (add32 total (rbb.blkSet c).size)
      simp only [Breaks, not_or, not_not, not_lt] at hbr
      rw [hcons]
      refine ⟨rest, congrArg (c :: ·) hl, ?_, List.isChain_cons_cons.mpr ⟨hbr.2.1, hrise⟩, ?_⟩
      · intro i hi
        rcases List.mem_cons.mp hi with rfl | hi
        · exact hbr.1
        · exact hput i hi
      · intro b post he
        exact hend b post he

theorem follow_eq {len b : Nat} {post : List Nat} (hlen : len < 2 ^ 32) :
    ∀ {more : List Nat} {last total : Nat}, (∀ i ∈ more, (rbb.blkSet i).status = .put) →
      Rising rbb (last :: more) → total + sizes rbb more ≤ len →
      Breaks rbb len ((last :: more).getLast (by simp)) (total + sizes rbb more) b →
      follow rbb len last total (more ++ b :: post) = more
  | [], last, total, _, _, _, hb => by
    have hb : Breaks rbb len last total b := hb
    simp only [List.nil_append, follow, if_pos hb]
  | c :: more, last, total, hput, hrise, hsum, hb => by
    obtain ⟨hle, hrise⟩ := List.isChain_cons_cons.mp hrise
    rw [sizes_cons] at hsum hb
    have hadd : add32 total (rbb.blkSet c).size = total + (rbb.blkSet c).size := add32_of_lt (by omega)
    have hgo : ¬ Breaks rbb len last total c := by
      simp only [Breaks, not_or, not_not, not_lt]
      exact ⟨hput c (List.mem_cons_self ..), hle, by omega⟩
    rw [List.getLast_cons (List.cons_ne_nil _ _), ← Nat.add_assoc] at hb
    rw [List.cons_append, follow, if_neg hgo, hadd, follow_eq hlen
      (fun i hi => hput i (List.mem_cons_of_mem _ hi)) hrise (by omega) hb]

theorem gather_cases (rbb : RtRbb) (len : Nat) : ∀ bl : List Nat,
    ((∀ i ∈ bl, (rbb.blkSet i).status ≠ .put) ∧ gather rbb len bl = [] ∧ RunsOut rbb len bl) ∨
    ∃ pre f l, bl = pre ++ f :: l ∧ (∀ i ∈ pre, (rbb.blkSet i).status ≠ .put) ∧
      (rbb.blkSet f).status = .put
  | [] => .inl ⟨by simp, rfl, trivial⟩
  | b :: bl => by
    by_cases hput : (rbb.blkSet b).status = .put
    · exact .inr ⟨[], b, bl, rfl, by simp, hput⟩
    · rcases gather_cases rbb len bl with ⟨hno, hg, hr⟩ | ⟨pre, f, l, rfl, hpre, hf⟩
      · refine .inl ⟨List.forall_mem_cons.mpr ⟨hput, hno⟩, ?_, ?_⟩
        · simp only [gather, if_neg hput, hg]
        · rw [RunsOut, if_neg hput]
          exact hr
      · exact .inr ⟨b :: pre, f, l, rfl, List.forall_mem_cons.mpr ⟨hput, hpre⟩, hf⟩

theorem gather_eq {f : Nat} {l : List Nat} (len : Nat) (hf : (rbb.blkSet f).status = .put) :
    ∀ {pre : List Nat}, (∀ i ∈ pre, (rbb.blkSet i).status ≠ .put) →
      gather rbb len (pre ++ f :: l) = f :: follow rbb len f (add32 0 (rbb.blkSet f).size) l ∧
      (RunsOut rbb len (pre ++ f :: l) ↔ follow rbb len f (add32 0 (rbb.blkSet f).size) l = l)
  | [], _ => by simp [gather, RunsOut, hf]
  | b :: pre, h => by
    obtain ⟨hb, hpre⟩ := List.forall_mem_cons.mp h
    simpa [gather, RunsOut, hb] using gather_eq len hf hpre

end RtosKernel.RtThread.RingblkBuf
