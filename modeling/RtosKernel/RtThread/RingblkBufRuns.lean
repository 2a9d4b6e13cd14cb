import RtosKernel.RtThread.RingblkBufInvariant

/-! # Whole runs of the ring block buffer -/
namespace RtosKernel.RtThread.RingblkBuf
open Lib.Word Lib.LinkedList Lib.Spans
open RtThread.Def RtThread.Service

/-- The calls the assertions of `ringblk_buf.c` admit. -/
def Called (rbb : RtRbb) : Op → Prop
  | .alloc blkSize => blkSize < 2 ^ 24
  | .put block => block < rbb.blkMaxNum ∧ (rbb.blkSet block).status = .inited
  | .get => True
  | .free block => block < rbb.blkMaxNum ∧ (rbb.blkSet block).status ≠ .unused

/-- The calls that also find space: an allocation with a descriptor to give out
fits. -/
def Admissible (rbb : RtRbb) : Op → Prop
  | .alloc blkSize => blkSize < 2 ^ 24 ∧ (rbb.next .freeList ≠ none → Fits rbb blkSize)
  | .put block => Called rbb (.put block)
  | .get => Called rbb .get
  | .free block => Called rbb (.free block)

/-- The states reached from `start` by calls that meet `calls`. -/
inductive Reachable (calls : RtRbb → Op → Prop) (start : RtRbb) : RtRbb → Prop
  | init : Reachable calls start start
  | step {rbb rbb' : RtRbb} {op : Op} : Reachable calls start rbb → calls rbb op →
      exec rbb op = some rbb' → Reachable calls start rbb'

theorem exec_inv {rbb : RtRbb} {op : Op} (h : Inv rbb) (ha : Admissible rbb op) :
    ∃ rbb', exec rbb op = some rbb' ∧ Inv rbb' := by
  cases op with
  | alloc blkSize =>
    obtain ⟨r, hr, hi⟩ := rtRbbBlkAlloc_inv h ha.1 ha.2
    exact ⟨r.1, by simp [exec, hr], hi⟩
  | put block => exact rtRbbBlkPut_inv h ha.1 ha.2
  | get =>
    obtain ⟨r, hr, hi⟩ := rtRbbBlkGet_inv h
    exact ⟨r.1, by simp [exec, hr], hi⟩
  | free block => exact rtRbbBlkFree_inv h ha.1 ha.2

theorem Reachable.inv {start rbb : RtRbb} (h0 : Inv start)
    (h : Reachable Admissible start rbb) : Inv rbb := by
  induction h with
  | init => exact h0
  | step _ ha he ih =>
    obtain ⟨r, hr, hi⟩ := exec_inv ih ha
    rw [he] at hr
    exact Option.some.inj hr ▸ hi

/-- **Descriptors and blocks are accounted for while allocations find space**: each descriptor is on exactly one
list, `tail` ends the block list and the blocks lie apart inside the buffer, and every further admissible call
returns. -/
theorem rbb_accounted_while_fitting (buf : Buffer) (blockSet : Nat → RtRbbBlk) (n : Nat)
    (rbb : RtRbb) (h : Reachable Admissible (rtRbbInit buf blockSet n) rbb) :
    Accounted rbb ∧ ∀ op, Admissible rbb op → ∃ rbb', exec rbb op = some rbb' := by
  have hi := h.inv (rtRbbInit_inv buf blockSet n)
  refine ⟨hi.accounted, fun op ha => ?_⟩
  obtain ⟨r, hr, _⟩ := exec_inv hi ha
  exact ⟨r, hr⟩

def smallBuffer : Buffer := ⟨4096, 4, by decide⟩

/-- Two descriptors, both lists empty of content. -/
def smallRbb : RtRbb := rtRbbInit smallBuffer (fun _ => ⟨.unused, 0, 0⟩) 2

/-- A block of three bytes in the small buffer is accounted for. -/
theorem rbb_accounted_small : ∃ rbb, exec smallRbb (.alloc 3) = some rbb ∧ Accounted rbb := by
  have ha : Admissible smallRbb (.alloc 3) := ⟨by decide, fun _ => show 3 ≤ 4 by decide⟩
  obtain ⟨_, hret⟩ := rbb_accounted_while_fitting smallBuffer (fun _ => ⟨.unused, 0, 0⟩) 2 _ .init
  obtain ⟨rbb, hr⟩ := hret _ ha
  exact ⟨rbb, hr, (rbb_accounted_while_fitting smallBuffer (fun _ => ⟨.unused, 0, 0⟩) 2 rbb
    (.step .init ha hr)).1⟩

/-- **A failed allocation loses a descriptor.** After four bytes of the four are
taken, an allocation of one byte returns `RT_NULL`, and the second descriptor is
then on neither list. -/
theorem rbb_failed_alloc_loses_descriptor :
    ∃ rbb, Reachable Called (rtRbbInit smallBuffer (fun _ => ⟨.unused, 0, 0⟩) 2) rbb ∧
      ¬ Accounted rbb := by
  have hc (n : Nat) (h : n < 2 ^ 24) (r : RtRbb) : Called r (.alloc n) := h
  refine ⟨_, .step (.step .init (hc 4 (by decide) _) rfl) (hc 1 (by decide) _) rfl, ?_⟩
  rintro ⟨fl, bl, hl, -, -⟩
  have hf : fl.map Node.blk = [] := hl.free.det (chain_nil.mpr rfl)
  have hb : bl.map Node.blk = [.blk 1] := hl.blks.det (chain_cons.mpr ⟨rfl, chain_nil.mpr rfl⟩)
  have hmem : 0 ∈ fl ++ bl := (hl.mem 0).mpr (by decide)
  rw [List.map_eq_nil_iff.mp hf, List.nil_append, ← mem_map_blk, hb] at hmem
  simp at hmem

end RtosKernel.RtThread.RingblkBuf
