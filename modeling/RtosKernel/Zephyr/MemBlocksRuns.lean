import RtosKernel.Zephyr.MemBlocksOwners

/-! # Memory blocks under any interleaving

What each call does alone holds in every run of any number of threads. The one exception
is `sys_mem_blocks_get` for a pointer so far from the buffer that its offset does not fit
an `int`: it may take other blocks than the ones that were asked for. -/

namespace RtosKernel.Zephyr.MemBlocks
open Lib.Atomic Lib.Runs Zephyr.BitArrays Function Finset

variable {p : Pool} {T : Type} [DecidableEq T]

/-- The blocks a thread owns are those whose bits are set for it. -/
def Owns (owned : Finset Int) (held : Finset Nat) : Prop := ∀ x, x ∈ owned ↔ ∃ i ∈ held, x = (i : Int)

section Owns
variable {owned numbers : Finset Int} {held bits : Finset Nat} {l : List Nat} {ptr i n : Nat}

theorem Owns.union (h : Owns owned held) (h' : Owns numbers bits) : Owns (owned ∪ numbers) (held ∪ bits) := by
  intro x
  rw [mem_union, h x, h' x]
  simp only [mem_union, or_and_right, exists_or]

theorem Owns.sdiff (h : Owns owned held) (h' : Owns numbers bits) : Owns (owned \ numbers) (held \ bits) := by
  intro x
  rw [mem_sdiff, h x, h' x]
  constructor
  · rintro ⟨⟨i, hi, rfl⟩, hnot⟩
    exact ⟨i, mem_sdiff.mpr ⟨hi, fun hb => hnot ⟨i, hb, rfl⟩⟩, rfl⟩
  · rintro ⟨i, hi, rfl⟩
    obtain ⟨hi, hnot⟩ := mem_sdiff.mp hi
    refine ⟨⟨i, hi, rfl⟩, ?_⟩
    rintro ⟨j, hj, heq⟩
    rw [Int.ofNat_inj.mp heq] at hnot
    exact hnot hj

theorem owns_bits (h : ∀ ptr ∈ l, p.Inside ptr) : Owns (l.map p.number).toFinset (p.bits l) := by
  intro x
  simp only [Pool.bits, List.mem_toFinset, List.mem_map]
  constructor
  · rintro ⟨ptr, hptr, rfl⟩
    exact ⟨p.index ptr, ⟨ptr, hptr, rfl⟩, (h ptr hptr).number⟩
  · rintro ⟨i, ⟨ptr, hptr, rfl⟩, rfl⟩
    exact ⟨ptr, hptr, (h ptr hptr).number⟩

theorem owns_blocks (h : p.number ptr = (i : Int)) : Owns (p.blocks ptr n) (Finset.Ico i (i + n)) := by
  intro x
  simp only [Pool.blocks, mem_image, Finset.mem_range, mem_Ico, h]
  constructor
  · rintro ⟨j, hj, rfl⟩
    exact ⟨i + j, by omega, by push_cast; rfl⟩
  · rintro ⟨j, hj, rfl⟩
    exact ⟨j - i, by omega, by omega⟩

theorem blocks_zero : p.blocks ptr 0 = ∅ := by simp [Pool.blocks]

end Owns

/-! ## Calls -/

/-- A thread frees only blocks it owns, each once. -/
def Call.FreesOwn (p : Pool) (owned : Finset Int) : Call → Prop
  | .free inBlocks => (inBlocks.map p.number).Nodup ∧ ∀ ptr ∈ inBlocks, p.number ptr ∈ owned
  | .freeContiguous block count => p.blocks block count ⊆ owned
  | _ => True

/-- What was got is what was asked for. -/
def Call.Exact (p : Pool) : Call → Prop
  | .get inBlock count => count = 0 ∨ getOffset p inBlock = p.number inBlock
  | _ => True

/-- A call that fails has no effect, and one that does not has changed what the thread owns as it should. -/
def Call.Done (p : Pool) (call : Call) (owned : Finset Int) (before : Finset Nat) (r : Ret) (held : Finset Nat) : Prop :=
  (r.ret ≠ 0 → held = before) ∧ (r.ret = 0 → call.Exact p → Owns (call.owns p owned r.out) held)

theorem Pool.size_nonneg {x : Int} (hx : -2 ^ 31 ≤ x ∧ x < 2 ^ 31) (hsize : p.size x ≤ p.numBlocks) :
    (p.size x : Int) = x := by
  have hsmall := p.small
  have hpow : (2 : Int) ^ 32 ≤ 2 ^ p.wordBits := pow_le_pow_right₀ (by norm_num) p.wide
  rw [Pool.size] at hsize ⊢
  have hnonneg : 0 ≤ x % 2 ^ p.wordBits := Int.emod_nonneg x (by positivity)
  rw [Int.toNat_of_nonneg hnonneg]
  by_cases hneg : x < 0
  · have hmod : x % 2 ^ p.wordBits = x + 2 ^ p.wordBits := by
      rw [← Int.add_emod_right, Int.emod_eq_of_lt] <;> omega
    have hcast : ((p.numBlocks + p.numBlocks : Nat) : Int) < ((2 ^ p.wordBits : Nat) : Int) := Int.ofNat_lt.mpr hsmall
    push_cast at hcast
    omega
  · exact Int.emod_eq_of_lt (by omega) (by omega)

theorem getOffset_bounds (ptr : Nat) : -2 ^ 31 ≤ getOffset p ptr ∧ getOffset p ptr < 2 ^ 31 := by
  have hlo := Int.le_bmod (x := p.blocksFrom ptr) (m := 2 ^ 32) (by decide)
  have hhi := Int.bmod_lt (x := p.blocksFrom ptr) (m := 2 ^ 32) (by decide)
  rw [getOffset, int]
  omega

theorem inside_of_owned {owned : Finset Int} {held : Finset Nat} {ptr : Nat} (howns : Owns owned held)
    (hlt : ∀ i ∈ held, i < p.numBlocks) (h : p.number ptr ∈ owned) : p.Inside ptr ∧ p.index ptr ∈ held := by
  obtain ⟨i, hi, heq⟩ := (howns _).mp h
  have hlt := hlt i hi
  refine ⟨⟨by omega, by omega⟩, ?_⟩
  rw [Pool.index, heq, Int.toNat_natCast]
  exact hi

/-- **Every call alone.** -/
theorem call_meets {call : Call} {owned : Finset Int} {held : Finset Nat} (howns : Owns owned held)
    (hlt : ∀ i ∈ held, i < p.numBlocks) (hfrees : call.FreesOwn p owned) :
    Meets (semantics p) (call.Done p owned held) (call.body p) held := by
  cases call with
  | alloc count =>
    refine sysMemBlocksAlloc_meets.mono fun r held' hr => ?_
    rcases hr with ⟨hret, hfresh, rfl⟩ | ⟨hret, rfl⟩
    · exact ⟨fun h => absurd hret h, fun _ _ => howns.union (owns_bits hfresh.inside)⟩
    · exact ⟨fun _ => rfl, fun h => absurd h hret⟩
  | allocContiguous count =>
    refine sysMemBlocksAllocContiguous_meets.mono fun r held' hr => ?_
    rcases hr with ⟨hret, ⟨rfl, rfl⟩ | ⟨i, hout, hn, hi, hdisjoint, rfl⟩⟩ | ⟨hret, rfl⟩
    · refine ⟨fun h => absurd hret h, fun _ _ => ?_⟩
      simp only [Call.owns]
      split
      · rw [blocks_zero, union_empty]
        exact howns
      · exact howns
    · refine ⟨fun h => absurd hret h, fun _ _ => ?_⟩
      simp only [Call.owns, hout]
      exact howns.union (owns_blocks p.number_address)
    · exact ⟨fun _ => rfl, fun h => absurd h hret⟩
  | get inBlock count =>
    refine Meets.bind sysMemBlocksGet_meets fun r held' hr => ?_
    rcases hr with ⟨hret, ⟨rfl, rfl⟩ | ⟨hn, hle, hdisjoint, rfl⟩⟩ | ⟨hret, rfl⟩
    · refine ⟨fun h => absurd hret h, fun _ _ => ?_⟩
      simp only [Call.owns, blocks_zero, union_empty]
      exact howns
    · refine ⟨fun h => absurd hret h, fun _ hexact => howns.union (owns_blocks ?_)⟩
      rcases hexact with hzero | hexact
      · omega
      · rw [← hexact]
        exact (p.size_nonneg (getOffset_bounds inBlock) (by omega)).symm
    · exact ⟨fun _ => rfl, fun h => absurd h hret⟩
  | free inBlocks =>
    obtain ⟨hnodup, hown⟩ := hfrees
    have hin (ptr : Nat) (hptr : ptr ∈ inBlocks) := inside_of_owned howns hlt (hown ptr hptr)
    have hindex : (inBlocks.map p.index).Nodup := by
      have hmap : inBlocks.map p.index = (inBlocks.map p.number).map Int.toNat := by
        rw [List.map_map]
        rfl
      rw [hmap]
      refine List.Nodup.map_on (fun a ha b hb heq => ?_) hnodup
      obtain ⟨x, hx, rfl⟩ := List.mem_map.mp ha
      obtain ⟨y, hy, rfl⟩ := List.mem_map.mp hb
      rw [(hin x hx).1.number, (hin y hy).1.number]
      exact congrArg _ heq
    have hheld : p.bits inBlocks ⊆ held := by
      intro i hi
      obtain ⟨ptr, hptr, rfl⟩ := List.mem_map.mp (List.mem_toFinset.mp hi)
      exact (hin ptr hptr).2
    refine Meets.bind (sysMemBlocksFree_meets (fun ptr hptr => (hin ptr hptr).1) hindex hheld) fun r held' hr => ?_
    obtain ⟨rfl, rfl⟩ := hr
    exact ⟨fun h => absurd rfl h, fun _ _ => howns.sdiff (owns_bits fun ptr hptr => (hin ptr hptr).1)⟩
  | freeContiguous block count =>
    have hmem (j : Nat) (hj : j < count) : p.number block + j ∈ owned :=
      hfrees (mem_image.mpr ⟨j, Finset.mem_range.mpr hj, rfl⟩)
    have hin (hn : 0 < count) : p.Inside block := by
      have h0 := hmem 0 hn
      rw [Nat.cast_zero, add_zero] at h0
      exact (inside_of_owned howns hlt h0).1
    have hheld : Finset.Ico (p.index block) (p.index block + count) ⊆ held := by
      intro i hi
      rw [mem_Ico] at hi
      obtain ⟨j, hj, heq⟩ := (howns _).mp (hmem (i - p.index block) (by omega))
      have hnumber := (hin (by omega)).number
      obtain rfl : j = i := by omega
      exact hj
    have hle (hn : 0 < count) : p.index block + count ≤ p.numBlocks := by
      have hlast := hlt (p.index block + count - 1) (hheld (mem_Ico.mpr (by omega)))
      omega
    refine Meets.bind (sysMemBlocksFreeContiguous_meets hin hheld hle) fun r held' hr => ?_
    obtain ⟨rfl, rfl⟩ := hr
    refine ⟨fun h => absurd rfl h, fun _ _ => ?_⟩
    by_cases hn : 0 < count
    · exact howns.sdiff (owns_blocks (hin hn).number)
    · obtain rfl : count = 0 := by omega
      simp only [Call.owns, blocks_zero, sdiff_empty, Nat.add_zero, Finset.Ico_self]
      exact howns

/-! ## Runs -/

variable {s s' : System T} {t : T}

/-- The region that `sys_mem_blocks_get` is about to take is free, but it is not the one asked for. -/
def Astray (p : Pool) (s : System T) (inBlock count : Nat) : Prop :=
  getOffset p inBlock ≠ p.number inBlock ∧ ∀ i < count,
    p.size (getOffset p inBlock) + i < p.numBlocks ∧ s.bitmap.test (p.size (getOffset p inBlock) + i) = false

/-- A call of `sys_mem_blocks_get` that is about to use the bit array does not go astray. -/
def Phase.OnTarget (p : Pool) (s : System T) : Phase → Prop
  | .busy (.get inBlock count) (.op _ _) _ => ¬Astray p s inBlock count
  | _ => True

/-- Threads free only what they own, and get only what they ask for. -/
def Heeds (p : Pool) (s : System T) : Event T → Prop
  | .call t call => call.FreesOwn p (s.owned t)
  | .go t => (s.phase t).OnTarget p s

/-- A call of `sys_mem_blocks_get` has either not done anything yet or is about to return. -/
def Straight (p : Pool) (call : Call) (rest : Prog Op Result Ret) : Prop :=
  match call with
  | .get _ _ => rest = call.body p ∨ ∃ r, rest = .ret r ∧ (r.ret = 0 → call.Exact p)
  | _ => True

/-- The bit map, the bits set for each thread and the blocks it owns are in step. -/
structure Inv (p : Pool) (s : System T) : Prop where
  kept : Kept p s.bitmap s.held
  quiet : ∀ t, (s.phase t).quiet = true → Owns (s.owned t) (s.held t)
  busy : ∀ t call rest before, s.phase t = .busy call rest before →
    Meets (semantics p) (call.Done p (s.owned t) before) rest (s.held t) ∧ Straight p call rest ∧ Owns (s.owned t) before
  returned : ∀ t call r before, s.phase t = .returned call r before → r.ret ≠ 0 → s.held t = before

omit [DecidableEq T] in
theorem start_inv : Inv p (start p : System T) := by
  refine ⟨⟨rfl, fun t u _ => disjoint_empty_left _, fun t i hi => ?_, fun i _ => ?_⟩, fun t _ x => ?_, nofun, nofun⟩
  · simp [start] at hi
  · simp [start, BitArray.define, BitArray.test]
  · simp [start]

theorem Inv.call (h : Inv p s) {call : Call} (hquiet : (s.phase t).quiet = true) (hfrees : call.FreesOwn p (s.owned t)) :
    Inv p { s with phase := update s.phase t (.busy call (call.body p) (s.held t)) } := by
  refine ⟨h.kept, fun u hu => ?_, fun u call' rest before hu => ?_, fun u call' r before hu => ?_⟩
  · by_cases hut : u = t
    · subst hut
      exact h.quiet u hquiet
    · simp only [update_of_ne hut] at hu
      exact h.quiet u hu
  · by_cases hut : u = t
    · subst hut
      simp only [update_self, Phase.busy.injEq] at hu
      obtain ⟨rfl, rfl, rfl⟩ := hu
      refine ⟨call_meets (h.quiet u hquiet) (h.kept.lt u) hfrees, ?_, h.quiet u hquiet⟩
      cases call with
      | get => exact .inl rfl
      | _ => trivial
    · simp only [update_of_ne hut] at hu
      exact h.busy u call' rest before hu
  · by_cases hut : u = t
    · subst hut
      simp only [update_self] at hu
      cases hu
    · simp only [update_of_ne hut] at hu
      exact h.returned u call' r before hu

theorem get_op {inBlock count : Nat} {o : Op} {next : Result o → Prog Op Result Ret}
    (h : Prog.op o next = Call.body p (.get inBlock count)) :
    0 < count ∧ Prog.op o next = .op (.testAndSetRegion count (p.size (getOffset p inBlock)) true)
      fun ret => .ret ⟨if ret ≠ (0 : Int) then enomem else ret, []⟩ := by
  simp only [Call.body, sysMemBlocksGet] at h
  split at h
  · cases h
  split at h
  · cases h
  rename_i hcount _
  refine ⟨Nat.pos_of_ne_zero hcount, h.trans (congrArg (Prog.op _) (funext fun ret => ?_))⟩
  show Prog.bind (if ret ≠ (0 : Int) then _ else _) _ = _
  split <;> rfl

theorem Inv.op (h : Inv p s) {call : Call} {o : Op} {next : Result o → Prog Op Result Ret} {before : Finset Nat}
    (hphase : s.phase t = .busy call (.op o next) before) (hheeds : Heeds p s (.go t)) :
    Inv p (s.go p t call before (.op o next)) := by
  obtain ⟨hmeets, hstraight, howns⟩ := h.busy t call _ before hphase
  obtain ⟨hkept, hnext⟩ := semantics_sound.step h.kept hmeets
  have hother {u : T} (hut : u ≠ t) : (s.go p t call before (.op o next)).phase u = s.phase u ∧
      (s.go p t call before (.op o next)).held u = s.held u :=
    ⟨update_of_ne hut _ _, update_of_ne hut _ _⟩
  refine ⟨hkept, fun u hu => ?_, fun u call' rest before' hu => ?_, fun u call' r before' hu => ?_⟩
  · by_cases hut : u = t
    · subst hut
      rw [show (s.go p u call before (.op o next)).phase u = _ from update_self ..] at hu
      cases hu
    · rw [(hother hut).1] at hu
      rw [(hother hut).2]
      exact h.quiet u hu
  · by_cases hut : u = t
    · subst hut
      rw [show (s.go p u call before (.op o next)).phase u = _ from update_self .., Phase.busy.injEq] at hu
      obtain ⟨rfl, rfl, rfl⟩ := hu
      rw [show (s.go p u call before (.op o next)).held u = _ from update_self ..]
      refine ⟨hnext, ?_, howns⟩
      cases call with
      | get inBlock count =>
        obtain hbody | ⟨r, hr, -⟩ := hstraight
        · obtain ⟨hcount, hop⟩ := get_op hbody
          cases hop
          refine .inr ⟨_, rfl, fun hret => .inr ?_⟩
          rw [Heeds, hphase] at hheeds
          by_contra hne
          refine hheeds ⟨hne, fun i hi => ?_⟩
          obtain ⟨⟨ret, ba'⟩, hgo⟩ : ∃ x, sysBitarrayTestAndSetRegion s.bitmap p.wordBits count
            (p.size (getOffset p inBlock)) true = x := ⟨_, rfl⟩
          replace hret : (if (sysBitarrayTestAndSetRegion s.bitmap p.wordBits count (p.size (getOffset p inBlock)) true).1
            ≠ 0 then enomem else _) = 0 := hret
          rw [hgo] at hret
          have hsmall := p.small
          rcases sysBitarrayTestAndSetRegion_spec (by rw [h.kept.size]; exact hsmall) hgo with
            ⟨-, -, hclear, hw⟩ | ⟨hfail, -⟩
          · have hinside := hw.inside
            rw [h.kept.size] at hinside
            exact ⟨by omega, hclear _ (by omega) (by omega)⟩
          · rw [if_pos hfail] at hret
            cases hret
        · cases hr
      | _ => trivial
    · rw [(hother hut).1] at hu
      rw [(hother hut).2]
      exact h.busy u call' rest before' hu
  · by_cases hut : u = t
    · subst hut
      rw [show (s.go p u call before (.op o next)).phase u = _ from update_self ..] at hu
      cases hu
    · rw [(hother hut).1] at hu
      rw [(hother hut).2]
      exact h.returned u call' r before' hu

theorem Inv.ret (h : Inv p s) {call : Call} {r : Ret} {before : Finset Nat}
    (hphase : s.phase t = .busy call (.ret r) before) : Inv p (s.go p t call before (.ret r)) := by
  obtain ⟨⟨hfail, hdone⟩, hstraight, howns⟩ := h.busy t call _ before hphase
  have hexact (hret : r.ret = 0) : call.Exact p := by
    cases call with
    | get inBlock count =>
      obtain hbody | ⟨r', hr', hexact⟩ := hstraight
      · simp only [Call.body, sysMemBlocksGet] at hbody
        split at hbody
        · exact .inl (by assumption)
        · split at hbody
          · cases hbody
            cases hret
          · cases hbody
      · cases hr'
        exact hexact hret
    | _ => trivial
  have hphase' (u : T) : (s.go p t call before (.ret r)).phase u = if u = t then .returned call r before else s.phase u :=
    update_apply ..
  have howned {u : T} (hut : u ≠ t) : (s.go p t call before (.ret r)).owned u = s.owned u := by
    simp only [System.go]
    split
    · exact update_of_ne hut _ _
    · rfl
  refine ⟨h.kept, fun u hu => ?_, fun u call' rest before' hu => ?_, fun u call' r' before' hu => ?_⟩
  · by_cases hut : u = t
    · subst hut
      show Owns ((if r.ret = 0 then update s.owned u _ else s.owned) u) (s.held u)
      by_cases hret : r.ret = 0
      · rw [if_pos hret, update_self]
        exact hdone hret (hexact hret)
      · rw [if_neg hret, hfail hret]
        exact howns
    · rw [hphase', if_neg hut] at hu
      rw [howned hut]
      exact h.quiet u hu
  · rw [hphase'] at hu
    split at hu
    · cases hu
    rename_i hut
    rw [howned hut]
    exact h.busy u call' rest before' hu
  · rw [hphase'] at hu
    split at hu
    · rename_i hut
      cases hu
      rw [hut]
      exact hfail
    · exact h.returned u call' r' before' hu

/-- **One step.** -/
theorem Inv.step {e : Event T} (h : Inv p s) (hheeds : Heeds p s e) (hstep : step p s e = .ok s') : Inv p s' := by
  cases e with
  | call t call =>
    simp only [MemBlocks.step] at hstep
    split at hstep
    · rename_i hquiet
      cases hstep
      exact h.call hquiet hheeds
    · cases hstep
  | go t =>
    simp only [MemBlocks.step] at hstep
    split at hstep
    · rename_i call rest before hphase
      cases hstep
      cases rest with
      | ret r => exact h.ret hphase
      | op o next => exact h.op hphase hheeds
    · cases hstep

/-- **Blocks are neither shared nor leaked** in any interleaving of any number of threads that free only blocks they
own, as long as no call of `sys_mem_blocks_get` goes astray. -/
theorem sys_mem_blocks_sound {es : List (Event T)} (hes : Along (step p) (Heeds p) (start p) es)
    (hrun : run (step p) (start p) es = .ok s) :
    ((∀ t, (s.phase t).quiet = true) →
      (∀ i < p.numBlocks, s.bitmap.test i = true ↔ ∃! t, (i : Int) ∈ s.owned t) ∧
        ∀ t u, t ≠ u → Disjoint (s.owned t) (s.owned u)) ∧
      ∀ t call r before, s.phase t = .returned call r before → r.ret ≠ 0 → s.held t = before := by
  have h : Inv p s := run_inv (fun _ _ _ h hheeds hgo => Inv.step h hheeds hgo) start_inv hes hrun
  refine ⟨fun hquiet => ⟨fun i hi => ?_, fun t u htu => ?_⟩, h.returned⟩
  · have howned (t : T) : (i : Int) ∈ s.owned t ↔ i ∈ s.held t := by
      rw [h.quiet t (hquiet t) i]
      refine ⟨?_, fun hi => ⟨i, hi, rfl⟩⟩
      rintro ⟨j, hj, heq⟩
      rw [Int.ofNat_inj.mp heq]
      exact hj
    simp only [howned]
    rw [h.kept.apart.existsUnique, h.kept.test i hi]
  · refine Finset.disjoint_left.mpr fun x ht hu => ?_
    obtain ⟨i, hi, rfl⟩ := (h.quiet t (hquiet t) x).mp ht
    obtain ⟨j, hj, heq⟩ := (h.quiet u (hquiet u) _).mp hu
    rw [Int.ofNat_inj.mp heq] at hi
    exact Finset.disjoint_left.mp (h.kept.apart t u htu) hi hj

section Decide
variable {owned : Finset Int}

instance (call : Call) : Decidable (call.FreesOwn p owned) := by
  cases call <;> unfold Call.FreesOwn <;> infer_instance

instance (inBlock count : Nat) : Decidable (Astray p s inBlock count) := inferInstanceAs (Decidable (_ ∧ ∀ i < count, _ ∧ _))

instance (phase : Phase) : Decidable (phase.OnTarget p s) := by
  unfold Phase.OnTarget
  split <;> infer_instance

instance (e : Event T) : Decidable (Heeds p s e) := by
  cases e with
  | call => exact inferInstanceAs (Decidable (Call.FreesOwn ..))
  | go t =>
    exact inferInstanceAs (Decidable ((s.phase t).OnTarget p s))

end Decide

def fourBlocks (wordBits : Nat) (wide : 32 ≤ wordBits) : Pool where
  numBlocks := 4
  blkSzShift := 6
  buffer := 4096
  wordBits := wordBits
  wide := wide
  buffer_pos := by decide
  numBlocks_lt := by decide
  fits := (by decide : 4096 + 4 * 2 ^ 6 ≤ 2 ^ 32).trans (Nat.pow_le_pow_right (by decide) wide)
  object := lt_of_lt_of_le (by decide : 4 * 2 ^ 6 < 2 ^ 31) (Nat.pow_le_pow_right (by decide) (by omega))

/-- While one thread allocates two blocks another one tries to get three, fails, and gives two back; it asks for
one of them by its address. -/
def twoThreads : List (Event (Fin 2)) :=
  [.call 0 (.alloc 2), .go 0, .call 1 (.alloc 3), .go 1, .go 0, .go 1, .go 0, .go 1, .go 1, .go 1, .go 1,
    .call 1 (.get (4096 + 64) 1), .go 1, .go 1, .call 0 (.free [4096 + 128, 4096]), .go 0, .go 0, .go 0]

theorem sys_mem_blocks_sound_two :
    ∃ s, run (step (fourBlocks 32 le_rfl)) (start (fourBlocks 32 le_rfl)) twoThreads = .ok s ∧
      (∀ i < 4, s.bitmap.test i = true ↔ ∃! t, (i : Int) ∈ s.owned t) ∧ ∀ t u, t ≠ u → Disjoint (s.owned t) (s.owned u) :=
  exists_ok_that (P := fun s => ∀ t, (s.phase t).quiet = true) (by decide +kernel)
    fun _ hrun hend => (sys_mem_blocks_sound (by decide +kernel) hrun).1 hend

/-- With pointers of 64 bits, a thread asks for the block 2^32 blocks behind the buffer and takes the first one. -/
theorem sys_mem_blocks_get_astray :
    ∃ s, run (step (fourBlocks 64 (by decide))) (start (fourBlocks 64 (by decide)))
        [.call (0 : Fin 1) (.get (4096 + 2 ^ 38) 1), .go 0, .go 0] = .ok s ∧ (∀ t, (s.phase t).quiet = true) ∧
      ¬∀ i < 4, s.bitmap.test i = true ↔ ∃! t, (i : Int) ∈ s.owned t := by
  refine exists_ok_that (P := fun s => (∀ t, (s.phase t).quiet = true) ∧ s.bitmap.test 0 = true ∧ ∀ t, (0 : Int) ∉ s.owned t)
    (by decide +kernel) fun s _ ⟨hquiet, hset, hnone⟩ => ⟨hquiet, fun h => ?_⟩
  obtain ⟨t, ht, -⟩ := (h 0 (by decide)).mp hset
  exact hnone t ht

end RtosKernel.Zephyr.MemBlocks
