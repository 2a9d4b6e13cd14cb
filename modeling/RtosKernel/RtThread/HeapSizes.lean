import RtosKernel.RtThread.MemheapFit
import RtosKernel.RtThread.SmallMemFit

/-! # The sizes the heaps serve

Both heaps round a size up with `RT_ALIGN` before they look at it, and for the
sizes next to `2 ^ 32` that wraps to nothing. -/
namespace RtosKernel.RtThread.HeapSizes
open RtThread.Def

/-- **When the heaps hand out what was asked for.** In every state that calls reach, a call for at least a byte
hands out a used block that is large enough, or returns `RT_NULL` with the heap as it was, exactly if its size
is one the call serves. -/
theorem heaps_sound_iff {size : Nat} (hpos : 0 < size) (hlt : size < 2 ^ 32) :
    (∀ {c : SmallMem.Board} {beginAddr len : Nat} {item : Nat → SmallMem.RtSmallMemItem}
        {data : Nat → UInt8} {start : SmallMem.RtSmallMem} {s : SmallMem.State},
      SmallMem.rtSmemInit c beginAddr len item data = some start → start.self ≠ 0 →
      SmallMem.Reachable c start s →
      ((∀ r, SmallMem.rtSmemAlloc c (SmallMem.enough s.m) s.m size = some r →
          SmallMem.Sound c s.m size r) ↔ SmallMem.AllocOk c s.m size) ∧
        ∀ rmem, rmem = 0 ∨ rmem ∈ s.live →
          ((∀ r, SmallMem.rtSmemRealloc c (SmallMem.enough s.m) s.m rmem size = some r →
            SmallMem.Sound c s.m size r) ↔ SmallMem.ReallocOk c rmem size)) ∧
    ∀ {c : Memheap.Board} {l : Memheap.Place} {mem start : Memheap.RtMemheap} {s : Memheap.State},
      Memheap.rtMemheapInit c l mem = some start → 2 * c.memheapSize ≤ l.size →
      Memheap.Reached c start s →
      ((∀ r, Memheap.rtMemheapAlloc c (Memheap.enough s.h) s.h size = some r →
          Memheap.Sound c s.h size r) ↔ Memheap.AllocOk c s.h size) ∧
        ∀ ptr, ptr = 0 ∨ ptr ∈ s.live →
          ((∀ r, Memheap.rtMemheapRealloc c (Memheap.enough s.h) s.h ptr size = some r →
            Memheap.Sound c s.h size r) ↔ Memheap.ReallocOk c s.h ptr size) := by
  refine ⟨fun hinit hself h => ⟨?_, fun rmem hv => ?_⟩, fun hinit hpool h => ⟨?_, fun ptr hv => ?_⟩⟩
  · exact SmallMem.rtSmemAlloc_sound hinit h hpos hlt
  · exact SmallMem.rtSmemRealloc_sound hinit hself h hv hpos hlt
  · exact Memheap.rtMemheapAlloc_sound hinit hpool h hlt
  · exact Memheap.rtMemheapRealloc_sound hinit hpool h hv hpos hlt

/-- A call for 20 bytes keeps the promise in a new heap of either kind. -/
theorem heaps_sound_small :
    (∃ start, SmallMem.rtSmemInit SmallMem.smallBoard 4096 196 SmallMem.blank (fun _ => 0) = some start ∧
      ∀ r, SmallMem.rtSmemAlloc SmallMem.smallBoard (SmallMem.enough start) start 20 = some r →
        SmallMem.Sound SmallMem.smallBoard start 20 r) ∧
    ∃ start, Memheap.rtMemheapInit Memheap.smallBoard Memheap.smallPlace Memheap.blank = some start ∧
      ∀ r, Memheap.rtMemheapAlloc Memheap.smallBoard (Memheap.enough start) start 20 = some r →
        Memheap.Sound Memheap.smallBoard start 20 r := by
  constructor
  · obtain ⟨start, hinit, _⟩ := SmallMem.smallHeap
    have hself : start.self ≠ 0 := by
      cases hinit
      decide
    have hsound := (heaps_sound_iff (show 0 < 20 by decide) (by decide)).1 hinit hself .init
    exact ⟨start, hinit, hsound.1.mpr (.inl (by decide))⟩
  · obtain ⟨start, hinit⟩ : ∃ h, Memheap.rtMemheapInit Memheap.smallBoard Memheap.smallPlace
      Memheap.blank = some h := ⟨_, rfl⟩
    have hsound := (heaps_sound_iff (show 0 < 20 by decide) (by decide)).2 hinit (by decide) .init
    exact ⟨start, hinit, hsound.1.mpr (.inl (by decide))⟩

/-- All but one of `2 ^ 32` bytes: the new heap of 116 bytes hands out its smallest
block. -/
theorem heaps_unsound_small : ∃ start,
    SmallMem.rtSmemInit SmallMem.smallBoard 4096 196 SmallMem.blank (fun _ => 0) = some start ∧
    SmallMem.Reachable SmallMem.smallBoard start ⟨start, ∅⟩ ∧
    ∃ r, SmallMem.rtSmemAlloc SmallMem.smallBoard (SmallMem.enough start) start (2 ^ 32 - 1) = some r ∧
      ¬ SmallMem.Sound SmallMem.smallBoard start (2 ^ 32 - 1) r := by
  obtain ⟨start, hinit, hmin⟩ := SmallMem.smallHeap
  have hi : SmallMem.Inv SmallMem.smallBoard start [⟨0, false⟩] := SmallMem.rtSmemInit_inv hinit hmin
  have hfits : SmallMem.Fits SmallMem.smallBoard start [⟨0, false⟩] SmallMem.smallBoard.minSizeAligned 0 := by
    cases hinit
    exact ⟨by simp, by decide⟩
  have hr : SmallMem.Reachable SmallMem.smallBoard start ⟨start, ∅⟩ := .init
  have hno : ¬ SmallMem.AllocOk SmallMem.smallBoard start (2 ^ 32 - 1) := by
    rintro (hup | hnone)
    · exact absurd hup (by decide)
    · exact hnone _ hi 0 hfits
  have hunsound := mt (SmallMem.rtSmemAlloc_sound hinit hr (by decide) (by decide)).mp hno
  push Not at hunsound
  exact ⟨start, hinit, hr, hunsound⟩

end RtosKernel.RtThread.HeapSizes
