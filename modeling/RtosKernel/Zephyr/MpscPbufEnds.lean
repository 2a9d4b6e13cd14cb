import RtosKernel.Zephyr.MpscPbufRounds

/-! # Whether the producers get through

Without a claimed packet every loop ends: padding is put at most once, and then each round gives up a part. A
producer that waits does not drop padding, so in an empty buffer it may have less room than one that does not.
-/
namespace RtosKernel.Zephyr.MpscPbuf
open Lib.Window Lib.RingRecords List

variable {cfg : Config} {s s' : Buffer} {cs cs' l m : List Chunk} {e : Entry} {wlen : Nat}
  {round : Buffer → Buffer × Turn} {evs : List Event} {os : List Obs}

/-- The loop of the call comes to an end. -/
def Terminates (round : Buffer → Buffer × Turn) (s : Buffer) : Prop := ∃ t, Ends round s t

/-- It ends with the packet in the buffer. -/
def Stores (round : Buffer → Buffer × Turn) (s : Buffer) : Prop := ∃ item, Ends round s (.accepted item)

theorem Stores.terminates (h : Stores round s) : Terminates round s := h.imp' _ fun _ hends => hends

theorem Stores.of_room (hloop : Looping cfg wlen round) (hfree : wlen ≤ (freeSpace cfg s).1) : Stores round s :=
  ⟨_, .last (hloop.enough s hfree) fun d hd => by cases hd⟩

theorem Stores.again {d : Option Dropped} (h : (round s).2 = .again d) (rest : Stores round (round s).1) : Stores round s := by
  obtain ⟨item, hends⟩ := rest
  exact ⟨item, .more h hends⟩

theorem freeSpace_cases (cfg : Config) (s : Buffer) :
    (s.tmpWrIdx < s.rdIdx ∧ freeSpace cfg s = (s.rdIdx - s.tmpWrIdx - 1, false)) ∨
      (s.rdIdx = 0 ∧ freeSpace cfg s = (cfg.size - s.tmpWrIdx - 1, false)) ∨
      (0 < s.rdIdx ∧ s.rdIdx ≤ s.tmpWrIdx ∧ freeSpace cfg s = (cfg.size - s.tmpWrIdx, true)) := by
  unfold freeSpace
  split
  · exact .inl ⟨‹_›, rfl⟩
  · split
    · exact .inr (.inl ⟨‹_›, rfl⟩)
    · exact .inr (.inr ⟨by omega, by omega, rfl⟩)

theorem freeSpace_zero (h0 : s.tmpWrIdx = 0) : (freeSpace cfg s).2 = false := by
  rcases freeSpace_cases cfg s with ⟨_, heq⟩ | ⟨_, heq⟩ | ⟨_, _, _⟩
  · rw [heq]
  · rw [heq]
  · omega

/-! ## Without a claimed packet -/

section
variable (hsize : cfg.size ≤ 2 ^ 30) (hloop : Looping cfg wlen round) (hlt : wlen < cfg.size)
include hsize hloop hlt

/-- A packet is stored if the next round, where there is one, leads to a ring from which it is. -/
theorem Ring.stores_of (h : Ring cfg s cs) (hnext : (freeSpace cfg s).1 < wlen → ∀ s' cs', Ring cfg s' cs' →
    Onward (freeSpace cfg s).2 s.tmpWrIdx s'.tmpWrIdx cs cs' → Stores round s') : Stores round s := by
  by_cases hfree : wlen ≤ (freeSpace cfg s).1
  · exact .of_room hloop hfree
  · have hfree := Nat.lt_of_not_le hfree
    obtain ⟨d, cs', hagain, hring, hon⟩ := h.onward hsize hloop hfree hlt
    exact .again hagain (hnext hfree _ cs' hring hon)

theorem Ring.stores_zero (h : Ring cfg s cs) (hcs : ∀ c ∈ cs, c.claimed? = none) (h0 : s.tmpWrIdx = 0) : Stores round s := by
  induction cs generalizing s with
  | nil =>
    refine h.stores_of hsize hloop hlt fun _ s' cs' _ hon => ?_
    rw [freeSpace_zero h0] at hon
    cases hon with
    | pad hwrap => cases hwrap
  | cons c cs ih =>
    refine h.stores_of hsize hloop hlt fun _ s' cs' hring hon => ?_
    rw [freeSpace_zero h0] at hon
    cases hon with
    | pad hwrap => cases hwrap
    | drop _ _ hsame => exact ih hring (fun c hc => hcs c (mem_cons_of_mem _ hc)) (hsame.trans h0)
    | turn => cases hcs _ (mem_cons_self ..)

omit hsize hloop hlt in
theorem unclaimed_pad (hm : ∀ c ∈ m, c.claimed? = none) (n : Nat) : ∀ c ∈ m ++ [.pad n], c.claimed? = none := by
  intro c hc
  rcases mem_append.mp hc with hc | hc
  · exact hm c hc
  · cases mem_singleton.mp hc
    rfl

theorem Ring.stores_unclaimed (h : Ring cfg s cs) (hcs : ∀ c ∈ cs, c.claimed? = none) : Stores round s := by
  induction cs generalizing s with
  | nil =>
    refine h.stores_of hsize hloop hlt fun _ s' cs' hring hon => ?_
    cases hon with
    | pad _ h0 => exact hring.stores_zero hsize hloop hlt (unclaimed_pad hcs _) h0
  | cons c cs ih =>
    refine h.stores_of hsize hloop hlt fun _ s' cs' hring hon => ?_
    cases hon with
    | pad _ h0 => exact hring.stores_zero hsize hloop hlt (unclaimed_pad hcs _) h0
    | drop => exact ih hring fun c hc => hcs c (mem_cons_of_mem _ hc)
    | turn => cases hcs _ (mem_cons_self ..)

end

/-! ## With a claimed packet -/

/-- There is room for `wlen` words in front of `n` words at index `i`, or behind them. One word stays free. -/
def Room (size i n wlen : Nat) : Prop := if i = 0 then n + wlen < size else wlen < i ∨ i + n + wlen ≤ size

instance (size i n wlen : Nat) : Decidable (Room size i n wlen) := by
  unfold Room
  infer_instance

theorem Parts.claimed_at (h : Parts cfg s (l ++ .packet e true :: m)) :
    1 ≤ e.words.length ∧ e.item + e.words.length ≤ cfg.size ∧
      total Chunk.len l + (e.words.length + total Chunk.len m) < cfg.size ∧
      e.item = (if s.rdIdx + total Chunk.len l < cfg.size then s.rdIdx + total Chunk.len l
        else s.rdIdx + total Chunk.len l - cfg.size) ∧
      s.tmpWrIdx = if s.rdIdx + (total Chunk.len l + (e.words.length + total Chunk.len m)) < cfg.size
        then s.rdIdx + (total Chunk.len l + (e.words.length + total Chunk.len m))
        else s.rdIdx + (total Chunk.len l + (e.words.length + total Chunk.len m)) - cfg.size := by
  obtain ⟨hle, hitem, hpos, _⟩ := h.at
  have hfits := h.fits
  have hrd := h.rd_lt
  have htmp := h.tmpWr
  simp only [total_append, total_cons, Chunk.len_packet] at hfits htmp
  refine ⟨hpos, ?_, hfits, ?_, ?_⟩
  · rw [hitem]
    exact hle
  · rw [hitem]
    exact mod_of_lt_two (by omega)
  · rw [htmp]
    exact mod_of_lt_two (by omega)

theorem Onward.around {wrap : Bool} {tmpWr tmpWr' : Nat} (h : Onward wrap tmpWr tmpWr' (l ++ .packet e true :: m) cs')
    (hl : ∀ c ∈ l, c.claimed? = none) (hm : ∀ c ∈ m, c.claimed? = none) :
    (wrap = true ∧ tmpWr' = 0 ∧ ∃ n, cs' = l ++ .packet e true :: (m ++ [.pad n])) ∨
      (wrap = false ∧ tmpWr' = tmpWr ∧ ∃ c l', l = c :: l' ∧ cs' = l' ++ .packet e true :: m) ∨
      (wrap = false ∧ l = [] ∧ ∃ l', cs' = l' ++ [.packet e true] ∧ ∀ c ∈ l', c.claimed? = none) := by
  generalize hcs : l ++ Chunk.packet e true :: m = cs at h
  cases h with
  | @pad _ n hwrap h0 =>
    subst hcs
    exact .inl ⟨hwrap, h0, n, by simp⟩
  | drop hwrap hc hsame =>
    cases l with
    | nil =>
      cases hcs
      cases hc
    | cons c l =>
      cases hcs
      exact .inr (.inl ⟨hwrap, hsame, _, _, rfl, rfl⟩)
  | @turn e2 c cs ds n hwrap hds =>
    cases l with
    | nil =>
      cases hcs
      exact .inr (.inr ⟨hwrap, rfl, ds, rfl, fun x hx => unclaimed_pad hm n x (hds ▸ mem_cons_of_mem _ hx)⟩)
    | cons c l =>
      cases hcs
      cases hl _ (mem_cons_self ..)

theorem Parts.no_room (h : Parts cfg s (l ++ .packet e true :: m)) (hno : ¬ Room cfg.size e.item e.words.length wlen) :
    (freeSpace cfg s).1 < wlen := by
  obtain ⟨hpos, hle, hfits, hitem, htmp⟩ := h.claimed_at
  have hrd := h.rd_lt
  unfold Room at hno
  rcases freeSpace_cases cfg s with ⟨hlt, heq⟩ | ⟨h0, heq⟩ | ⟨hpos0, hle0, heq⟩
  · rw [heq]
    split at hno <;> split at hitem <;> split at htmp <;> omega
  · rw [heq]
    split at hno <;> split at hitem <;> split at htmp <;> omega
  · rw [heq]
    split at hno <;> split at hitem <;> split at htmp <;> omega

section
variable (hsize : cfg.size ≤ 2 ^ 30) (hloop : Looping cfg wlen round) (hlt : wlen < cfg.size)
include hsize hloop hlt

section
variable (h : Ring cfg s (l ++ .packet e true :: m)) (hl : ∀ c ∈ l, c.claimed? = none) (hm : ∀ c ∈ m, c.claimed? = none)
include h hl hm

theorem Ring.never_ends
    (hno : ¬ Room cfg.size e.item e.words.length wlen) : ¬ Terminates round s := by
  intro hterm
  obtain ⟨t, hends⟩ := hterm
  induction hends generalizing l m with
  | last heq ht =>
    obtain ⟨d, _, hagain, _⟩ := h.onward hsize hloop (h.parts.no_room hno) hlt
    exact ht d (heq.symm.trans hagain)
  | more heq _ ih =>
    obtain ⟨d, cs', _, hring, hon⟩ := h.onward hsize hloop (h.parts.no_room hno) hlt
    rcases hon.around hl hm with ⟨_, _, n, rfl⟩ | ⟨_, _, c, l', rfl, rfl⟩ | ⟨_, rfl, l', rfl, hl'⟩
    · exact ih hring hl (unclaimed_pad hm n)
    · exact ih hring (fun c hc => hl c (mem_cons_of_mem _ hc)) hm
    · exact ih hring hl' fun c hc => by cases hc

theorem Ring.to_claimed
    (h0 : s.tmpWrIdx = 0)
    (hfirst : ∀ s1, Ring cfg s1 (.packet e true :: m) → s1.tmpWrIdx = 0 → (freeSpace cfg s1).1 < wlen → Stores round s1) :
    Stores round s := by
  induction l generalizing s with
  | nil =>
    by_cases hfree : wlen ≤ (freeSpace cfg s).1
    · exact .of_room hloop hfree
    · exact hfirst s h h0 (Nat.lt_of_not_le hfree)
  | cons c l ih =>
    refine h.stores_of hsize hloop hlt fun _ s' cs' hring hon => ?_
    rw [freeSpace_zero h0] at hon
    rcases hon.around hl hm with ⟨hwrap, _⟩ | ⟨_, hsame, c', l', hcl, rfl⟩ | ⟨_, hnil, _⟩
    · cases hwrap
    · cases hcl
      exact ih hring (fun c hc => hl c (mem_cons_of_mem _ hc)) (hsame.trans h0)
    · cases hnil

theorem Ring.stores_front
    (h0 : s.tmpWrIdx = 0) (hroom : wlen < e.item) : Stores round s := by
  refine h.to_claimed hsize hloop hlt hl hm h0 fun s1 h1 h10 hfree => ?_
  obtain ⟨_, _, _, hitem, _⟩ := Parts.claimed_at (l := []) h1.parts
  have hrd := h1.rd_lt
  rw [total_nil, Nat.add_zero, if_pos hrd] at hitem
  rcases freeSpace_cases cfg s1 with ⟨_, heq⟩ | ⟨_, heq⟩ | ⟨_, _, heq⟩ <;> rw [heq] at hfree <;> dsimp only at hfree <;> omega

end

omit hsize hloop hlt in
theorem Ring.front_of_wrap (h : Ring cfg s (l ++ [.packet e true])) (hroom : Room cfg.size e.item e.words.length wlen)
    (hfree : (freeSpace cfg s).1 < wlen) (hwrap : (freeSpace cfg s).2 = true) : wlen < e.item := by
  obtain ⟨hpos, hle, hfits, hitem, htmp⟩ := h.parts.claimed_at
  obtain ⟨heq, hpos0, hle0⟩ := freeSpace_wrap hwrap
  rw [total_nil, Nat.add_zero] at hfits htmp
  unfold Room at hroom
  split at hroom <;> split at hitem <;> split at htmp <;> omega

omit hsize hloop hlt in
theorem Ring.wraps_last (h : Ring cfg s [.packet e true]) (hroom : Room cfg.size e.item e.words.length wlen)
    (hfree : (freeSpace cfg s).1 < wlen) : (freeSpace cfg s).2 = true := by
  obtain ⟨hpos, hle, hfits, hitem, htmp⟩ := Parts.claimed_at (l := []) h.parts
  have hrd := h.rd_lt
  simp only [total_nil, Nat.add_zero, Nat.zero_add] at hfits htmp
  unfold Room at hroom
  rcases freeSpace_cases cfg s with ⟨hlt, heq⟩ | ⟨h0, heq⟩ | ⟨_, _, heq⟩
  · rw [heq] at hfree
    split at hroom <;> split at htmp <;> omega
  · rw [heq] at hfree
    split at hroom <;> split at htmp <;> omega
  · rw [heq]

theorem Ring.stores_last (h : Ring cfg s (l ++ [.packet e true])) (hl : ∀ c ∈ l, c.claimed? = none)
    (hroom : Room cfg.size e.item e.words.length wlen) : Stores round s := by
  induction l generalizing s with
  | nil =>
    refine h.stores_of hsize hloop hlt fun hfree s' cs' hring hon => ?_
    have hwrap := h.wraps_last hroom hfree
    rcases hon.around hl nofun with ⟨_, h0, n, rfl⟩ | ⟨hno, _⟩ | ⟨hno, _⟩
    · exact hring.stores_front hsize hloop hlt hl (unclaimed_pad (forall_mem_nil _) n) h0 (h.front_of_wrap hroom hfree hwrap)
    · cases hwrap.symm.trans hno
    · cases hwrap.symm.trans hno
  | cons c l ih =>
    refine h.stores_of hsize hloop hlt fun hfree s' cs' hring hon => ?_
    rcases hon.around hl nofun with ⟨hwrap, h0, n, rfl⟩ | ⟨_, _, _, _, hcl, rfl⟩ | ⟨_, hnil, _⟩
    · exact hring.stores_front hsize hloop hlt hl (unclaimed_pad (forall_mem_nil _) n) h0 (h.front_of_wrap hroom hfree hwrap)
    · cases hcl
      exact ih hring fun c hc => hl c (mem_cons_of_mem _ hc)
    · cases hnil

theorem Ring.stores_zero_claimed (h : Ring cfg s (l ++ .packet e true :: m)) (hl : ∀ c ∈ l, c.claimed? = none)
    (hm : ∀ c ∈ m, c.claimed? = none) (h0 : s.tmpWrIdx = 0) (hroom : Room cfg.size e.item e.words.length wlen) :
    Stores round s := by
  refine h.to_claimed hsize hloop hlt hl hm h0 fun s1 h1 h10 hfree => ?_
  obtain ⟨d, cs', hagain, hring, hon⟩ := h1.onward hsize hloop hfree hlt
  rw [freeSpace_zero h10] at hon
  rcases Onward.around (l := []) hon (fun c hc => by cases hc) hm with ⟨hno, _⟩ | ⟨_, _, _, _, hnil, _⟩ | ⟨_, _, l', rfl, hl'⟩
  · cases hno
  · cases hnil
  · exact .again hagain (hring.stores_last hsize hloop hlt hl' hroom)

/-- With room beside the claimed packet the loop ends, wherever the indices are. -/
theorem Ring.stores_claimed (h : Ring cfg s (l ++ .packet e true :: m)) (hl : ∀ c ∈ l, c.claimed? = none)
    (hm : ∀ c ∈ m, c.claimed? = none) (hroom : Room cfg.size e.item e.words.length wlen) : Stores round s := by
  induction l generalizing s with
  | nil =>
    refine h.stores_of hsize hloop hlt fun _ s' cs' hring hon => ?_
    rcases hon.around hl hm with ⟨_, h0, n, rfl⟩ | ⟨_, _, _, _, hnil, _⟩ | ⟨_, _, l', rfl, hl'⟩
    · exact hring.stores_zero_claimed hsize hloop hlt hl (unclaimed_pad hm n) h0 hroom
    · cases hnil
    · exact hring.stores_last hsize hloop hlt hl' hroom
  | cons c l ih =>
    refine h.stores_of hsize hloop hlt fun _ s' cs' hring hon => ?_
    rcases hon.around hl hm with ⟨_, h0, n, rfl⟩ | ⟨_, _, _, _, hcl, rfl⟩ | ⟨_, hnil, _⟩
    · exact hring.stores_zero_claimed hsize hloop hlt hl (unclaimed_pad hm n) h0 hroom
    · cases hcl
      exact ih hring fun c hc => hl c (mem_cons_of_mem _ hc)
    · cases hnil

/-! ## The loops in the states of a run -/

/-- There is room beside the packet that the consumer holds. -/
def RoomBeside (cfg : Config) (s : Buffer) (wlen : Nat) : Prop :=
  ∀ i ∈ s.held, Room cfg.size i (cfg.getWlen (s.item i)) wlen

omit hsize hloop hlt in
theorem Inv.claimed (h : Inv cfg s cs) {i : Nat} (hheld : s.held = some i) : ∃ l e m, cs = l ++ .packet e true :: m ∧
    e.item = i ∧ cfg.getWlen (s.item i) = e.words.length ∧ (∀ c ∈ l, c.claimed? = none) ∧ ∀ c ∈ m, c.claimed? = none := by
  obtain ⟨l, e, m, rfl, hitem, hl, hm⟩ := h.find_held hheld
  obtain ⟨_, hat⟩ := h.parts.at
  refine ⟨l, e, m, rfl, hitem, ?_, filterMap_eq_nil_iff.mp hl, filterMap_eq_nil_iff.mp hm⟩
  rw [← hitem, hat.1]
  exact hat.2.2.2.2.2.2 (hat.2.2.2.2.2.1 rfl)

theorem Inv.terminates_iff (h : Inv cfg s cs) (how : cfg.overwrite = true)
    (hset : (freeSpace cfg s).1 < wlen → ∀ o ∈ s.opens, cfg.getWlen (s.item o.1) = o.2) :
    Terminates round s ↔ RoomBeside cfg s wlen := by
  by_cases hfree : wlen ≤ (freeSpace cfg s).1
  · refine ⟨fun _ i hheld => ?_, fun _ => (Stores.of_room hloop hfree).terminates⟩
    obtain ⟨l, e, m, rfl, rfl, hlen, _⟩ := h.claimed hheld
    rw [hlen]
    exact Classical.byContradiction fun hno => absurd hfree (Nat.not_le.mpr (h.parts.no_room hno))
  · have hring := h.ring (hset (Nat.lt_of_not_le hfree)) fun _ _ _ => how
    cases hheld : s.held with
    | none =>
      have hcs : cs.filterMap Chunk.claimed? = [] := by simpa [hheld] using h.held
      have hterm := (hring.stores_unclaimed hsize hloop hlt (filterMap_eq_nil_iff.mp hcs)).terminates
      exact ⟨fun _ i hi => (by rw [hheld] at hi; cases hi), fun _ => hterm⟩
    | some i =>
      obtain ⟨l, e, m, rfl, rfl, hlen, hl, hm⟩ := h.claimed hheld
      have hiff : RoomBeside cfg s wlen ↔ Room cfg.size e.item e.words.length wlen := by
        simp [RoomBeside, hheld, hlen]
      rw [hiff]
      refine ⟨fun hterm => ?_, fun hroom => (hring.stores_claimed hsize hloop hlt hl hm hroom).terminates⟩
      exact Classical.byContradiction fun hno => hring.never_ends hsize hloop hlt hl hm hno hterm

end

/-- **A producer terminates if and only if its packet fits beside the claimed one.** In every state of a run
that avoids the other defects, the loops of `mpsc_pbuf_alloc` without waiting and of `mpsc_pbuf_put_data` end if
and only if the consumer holds no packet or there is room for the new one in front of it or behind it. -/
theorem producer_terminates_iff (hsize : cfg.size ≤ 2 ^ 30) (how : cfg.overwrite = true) (buf : Nat → Word)
    (hok : Along cfg (StepOk cfg) (mpscPbufInit buf) evs) (hrun : run cfg (mpscPbufInit buf) evs = some (s, os))
    (hset : (freeSpace cfg s).1 < wlen → ∀ o ∈ s.opens, cfg.getWlen (s.item o.1) = o.2) (hlt : wlen < cfg.size) :
    (Terminates (fun s => mpscPbufAlloc cfg s wlen false false) s ↔ RoomBeside cfg s wlen) ∧
      ∀ data : List Word, data.length = wlen →
        (Terminates (fun s => mpscPbufPutData cfg s data) s ↔ RoomBeside cfg s wlen) := by
  obtain ⟨cs, hinv, _⟩ := run_books hsize buf hok hrun
  refine ⟨hinv.terminates_iff hsize (looping_alloc hlt) hlt how hset, ?_⟩
  intro data hdata
  subst hdata
  exact hinv.terminates_iff hsize (looping_putData data) hlt how hset

instance (ev : Event) : Decidable (StepOk cfg s ev) := by
  refine ev.casesOn ?_ ?_ ?_ ?_ ?_ ?_ ?_ ?_ <;> intros <;> dsimp only [StepOk, FreeOk] <;> infer_instance

instance (wlen : Nat) : Decidable (RoomBeside cfg s wlen) := by
  unfold RoomBeside
  infer_instance

/-- The second packet is claimed, with one word free in front of it and one behind. -/
def claimedBetween : List Event := [oneWord 1, .claim, .free, oneWord 2, .claim]

theorem producer_terminates_iff_four : ∃ s os,
    run (shortPackets 4 (by decide) (by decide) true) (mpscPbufInit zeros) claimedBetween = some (s, os) ∧
      s.held = some 1 ∧
      (Terminates (fun s => mpscPbufAlloc (shortPackets 4 (by decide) (by decide) true) s 2 false false) s ↔
        RoomBeside (shortPackets 4 (by decide) (by decide) true) s 2) := by
  set cfg := shortPackets 4 (by decide) (by decide) true
  refine Lib.Runs.exists_pair_that (R := fun s _ => s.held = some 1 ∧ ∀ o ∈ s.opens, cfg.getWlen (s.item o.1) = o.2)
    (by decide +kernel) fun s os hrun hend => ⟨hend.1, ?_⟩
  exact (producer_terminates_iff (by decide) rfl zeros (by decide +kernel) hrun (fun _ => hend.2) (by decide)).1

/-- Three words do not fit beside the claimed packet in a buffer of four, and the loop never ends. -/
theorem producer_never_ends : ∃ s os,
    run (shortPackets 4 (by decide) (by decide) true) (mpscPbufInit zeros) claimedBetween = some (s, os) ∧
      s.opens = [] ∧ ¬ Terminates (fun s => mpscPbufAlloc (shortPackets 4 (by decide) (by decide) true) s 3 false false) s := by
  set cfg := shortPackets 4 (by decide) (by decide) true
  refine Lib.Runs.exists_pair_that (R := fun s _ => s.opens = [] ∧ ¬RoomBeside cfg s 3) (by decide +kernel)
    fun s os hrun ⟨hopens, hroom⟩ => ⟨hopens, fun hterm => hroom ?_⟩
  obtain ⟨cs, hinv, _⟩ := run_books (by decide) zeros (by decide +kernel) hrun
  have hiff := hinv.terminates_iff (by decide) (looping_alloc (show 3 < cfg.size by decide)) (by decide) rfl
    (by rw [hopens]; exact fun _ o ho => by cases ho)
  exact hiff.mp hterm

/-! ## With and without a timeout -/

/-- A round of `mpsc_pbuf_alloc` with a timeout takes the semaphore. -/
def TakesSem (cfg : Config) (s : Buffer) (wlen : Nat) : Prop :=
  wlen ≤ cfg.size - 1 ∧ (freeSpace cfg s).1 < wlen ∧ (freeSpace cfg s).2 = false

/-- `mpsc_pbuf_alloc` with a timeout, without pending: the semaphore was given `sem` times, and is taken
no more often. -/
inductive Unpended (cfg : Config) (wlen : Nat) : Nat → Buffer → Turn → Prop
  | last {sem : Nat} {s : Buffer} {t : Turn} (hroom : ¬ TakesSem cfg s wlen)
    (h : (mpscPbufAlloc cfg s wlen true false).2 = t) (ht : ∀ d, t ≠ .again d) : Unpended cfg wlen sem s t
  | more {sem : Nat} {s : Buffer} {d : Option Dropped} {t : Turn} (hroom : ¬ TakesSem cfg s wlen)
    (h : (mpscPbufAlloc cfg s wlen true false).2 = .again d)
    (rest : Unpended cfg wlen sem (mpscPbufAlloc cfg s wlen true false).1 t) : Unpended cfg wlen sem s t
  | taken {sem : Nat} {s : Buffer} {t : Turn} (htake : TakesSem cfg s wlen)
    (rest : Unpended cfg wlen sem (mpscPbufAlloc cfg s wlen true false).1 t) : Unpended cfg wlen (sem + 1) s t

/-- There is room for `wlen` words behind `tmp_wr_idx`, or from index 0 on if the rest of the ring is padded. -/
def RoomAhead (cfg : Config) (s : Buffer) (wlen : Nat) : Prop :=
  if s.tmpWrIdx < s.rdIdx then wlen < s.rdIdx - s.tmpWrIdx
  else if s.rdIdx = 0 then wlen < cfg.size - s.tmpWrIdx
  else wlen ≤ cfg.size - s.tmpWrIdx ∨ wlen < s.rdIdx

instance (wlen : Nat) : Decidable (RoomAhead cfg s wlen) := by
  unfold RoomAhead
  infer_instance

theorem not_unpended_of_takes (htake : TakesSem cfg s wlen) (sem : Nat) (t : Turn) : ¬ Unpended cfg wlen sem s t := by
  have hsame : (mpscPbufAlloc cfg s wlen true false).1 = s := by
    rw [mpscPbufAlloc_full (by have := cfg.two_le; have := htake.1; omega) true false htake.2.1 htake.2.2]
    rfl
  induction sem with
  | zero =>
    intro h
    cases h with
    | last hroom => exact hroom htake
    | more hroom => exact hroom htake
  | succ sem ih =>
    intro h
    cases h with
    | last hroom => exact hroom htake
    | more hroom => exact hroom htake
    | taken _ rest =>
      rw [hsame] at rest
      exact ih rest

theorem addSkip_indices (hsize : cfg.size ≤ 2 ^ 30) (htmp : s.tmpWrIdx < cfg.size) (hwrap : (freeSpace cfg s).2 = true) :
    (addSkipItem cfg s (freeSpace cfg s).1).tmpWrIdx = 0 ∧
      freeSpace cfg (addSkipItem cfg s (freeSpace cfg s).1) = (s.rdIdx - 1, false) := by
  obtain ⟨hfree, hpos, _⟩ := freeSpace_wrap hwrap
  have h0 : (addSkipItem cfg s (freeSpace cfg s).1).tmpWrIdx = 0 := by
    show idxInc cfg s.tmpWrIdx _ = 0
    rw [hfree, idxInc_eq hsize htmp (by omega), Nat.add_sub_cancel' htmp.le, Nat.mod_self]
  refine ⟨h0, ?_⟩
  have hrd : (addSkipItem cfg s (freeSpace cfg s).1).rdIdx = s.rdIdx := rfl
  rw [freeSpace, h0, hrd, if_pos hpos, Nat.sub_zero]

theorem roomAhead_iff (htmp : s.tmpWrIdx < cfg.size) :
    RoomAhead cfg s wlen ↔ wlen ≤ (freeSpace cfg s).1 ∨ ((freeSpace cfg s).2 = true ∧ wlen ≤ s.rdIdx - 1) := by
  unfold RoomAhead
  rcases freeSpace_cases cfg s with ⟨hlt, heq⟩ | ⟨h0, heq⟩ | ⟨hpos, hle, heq⟩
  · rw [heq, if_pos hlt]
    simp only [Bool.false_eq_true, false_and, or_false]
    omega
  · rw [heq, if_neg (by omega), if_pos h0]
    omega
  · rw [heq, if_neg (by omega), if_neg (by omega)]
    simp only [true_and]
    omega

section
variable (hsize : cfg.size ≤ 2 ^ 30) (hlt : wlen < cfg.size)
include hsize hlt

theorem Inv.unpended (h : Inv cfg s cs) (hroom : RoomAhead cfg s wlen) (sem : Nat) : ∃ item,
    Unpended cfg wlen sem s (.accepted item) ∧ Ends (fun s => mpscPbufAlloc cfg s wlen false false) s (.accepted item) := by
  have haccepts : ∀ s1, wlen ≤ (freeSpace cfg s1).1 → Unpended cfg wlen sem s1 (.accepted s1.tmpWrIdx) ∧
      Ends (fun s => mpscPbufAlloc cfg s wlen false false) s1 (.accepted s1.tmpWrIdx) := by
    intro s1 hfree
    have hdone : ∀ d, Turn.accepted s1.tmpWrIdx ≠ .again d := fun d hd => by cases hd
    have hroom : ¬ TakesSem cfg s1 wlen := fun htake => absurd htake.2.1 (Nat.not_lt.mpr hfree)
    exact ⟨.last hroom (mpscPbufAlloc_enough hlt true false hfree) hdone,
      .last (mpscPbufAlloc_enough hlt false false hfree) hdone⟩
  by_cases hfree : wlen ≤ (freeSpace cfg s).1
  · exact ⟨_, haccepts s hfree⟩
  · obtain ⟨hwrap, hle⟩ := ((roomAhead_iff h.tmpWr_lt).mp hroom).resolve_left hfree
    have hfree := Nat.lt_of_not_le hfree
    obtain ⟨_, hnext⟩ := addSkip_indices hsize h.tmpWr_lt hwrap
    obtain ⟨hunpended, hends⟩ := haccepts (addSkipItem cfg s (freeSpace cfg s).1) (by rw [hnext]; exact hle)
    have heq := mpscPbufAlloc_wrap hlt true false hfree hwrap
    have heq2 := mpscPbufAlloc_wrap hlt false false hfree hwrap
    have hroom : ¬ TakesSem cfg s wlen := fun htake => by cases hwrap.symm.trans htake.2.2
    refine ⟨(addSkipItem cfg s (freeSpace cfg s).1).tmpWrIdx, ?_, ?_⟩
    · refine .more hroom (congrArg Prod.snd heq) ?_
      rw [heq]
      exact hunpended
    · refine .more (congrArg Prod.snd heq2) ?_
      rw [heq2]
      exact hends

theorem Inv.roomAhead_of_unpended (h : Inv cfg s cs) {sem : Nat} {t : Turn} (hends : Unpended cfg wlen sem s t) :
    RoomAhead cfg s wlen := by
  rw [roomAhead_iff h.tmpWr_lt]
  by_contra hno
  have hfree : (freeSpace cfg s).1 < wlen := Nat.lt_of_not_le fun hle => hno (.inl hle)
  have hle : wlen ≤ cfg.size - 1 := Nat.le_sub_one_of_lt hlt
  cases hwrap : (freeSpace cfg s).2 with
  | false => exact not_unpended_of_takes ⟨hle, hfree, hwrap⟩ sem t hends
  | true =>
    obtain ⟨_, hnext⟩ := addSkip_indices hsize h.tmpWr_lt hwrap
    have heq := mpscPbufAlloc_wrap hlt true false hfree hwrap
    have htake : TakesSem cfg (addSkipItem cfg s (freeSpace cfg s).1) wlen := by
      refine ⟨hle, ?_, ?_⟩
      · rw [hnext]
        exact Nat.lt_of_not_le fun hle => hno (.inr ⟨hwrap, hle⟩)
      · rw [hnext]
    cases hends with
    | last _ hturn ht =>
      rw [heq] at hturn
      exact ht none hturn.symm
    | more _ _ rest =>
      rw [heq] at rest
      exact not_unpended_of_takes htake _ t rest
    | taken hsem => cases hwrap.symm.trans hsem.2.2

end

/-- **An allocation that may wait from an empty buffer.** When every packet was reported and freed, an
allocation without waiting returns a packet, and one with a timeout returns the same packet without pending if
and only if there is room ahead: the padding, which only the former drops, does not count. -/
theorem alloc_unpended_iff (hsize : cfg.size ≤ 2 ^ 30) (buf : Nat → Word)
    (hok : Along cfg (StepOk cfg) (mpscPbufInit buf) evs) (hrun : run cfg (mpscPbufInit buf) evs = some (s, os))
    (hwaiting : waiting os = []) (hholding : holding os = none) (hlt : wlen < cfg.size) (sem : Nat) :
    Stores (fun s => mpscPbufAlloc cfg s wlen false false) s ∧
      ((∃ item, Unpended cfg wlen sem s (.accepted item) ∧
        Ends (fun s => mpscPbufAlloc cfg s wlen false false) s (.accepted item)) ↔ RoomAhead cfg s wlen) := by
  obtain ⟨cs, hinv, hbooks⟩ := run_books hsize buf hok hrun
  have hpending : cs.filterMap Chunk.pending? = [] := hbooks.waiting.symm.trans hwaiting
  obtain ⟨_, _, _, _, hhold⟩ := hbooks
  have hheld : (ledger cs).held = none := Option.map_eq_none_iff.mp (hhold.symm.trans hholding)
  have hclaimed : cs.filterMap Chunk.claimed? = [] := List.head?_eq_none_iff.mp hheld
  -- there is nothing but padding
  have hpads : ∀ e b, .packet e b ∉ cs := by
    intro e b hmem
    cases b with
    | false => cases filterMap_eq_nil_iff.mp hpending _ hmem
    | true => cases filterMap_eq_nil_iff.mp hclaimed _ hmem
  have hopens : s.opens = [] := by
    rw [hinv.opens]
    refine filterMap_eq_nil_iff.mpr fun c hc => ?_
    cases c with
    | pad n => rfl
    | packet e b => exact absurd hc (hpads e b)
  have hring : Ring cfg s cs :=
    hinv.ring (by rw [hopens]; exact fun o ho => by cases ho) fun e b hmem => absurd hmem (hpads e b)
  refine ⟨hring.stores_unclaimed hsize (looping_alloc hlt) hlt (filterMap_eq_nil_iff.mp hclaimed), ?_, ?_⟩
  · intro h
    obtain ⟨item, hends, _⟩ := h
    exact hinv.roomAhead_of_unpended hsize hlt hends
  · intro hroom
    exact hinv.unpended hsize hlt hroom sem

/-- A packet of two words has come and gone. -/
def twoWords : List Event := [.putData [⟨true, false, 2#30⟩, ⟨false, true, 5#30⟩], .claim, .free]

theorem alloc_unpended_iff_two : ∃ s os,
    run (shortPackets 4 (by decide) (by decide) false) (mpscPbufInit zeros) twoWords = some (s, os) ∧
      ((∃ item, Unpended (shortPackets 4 (by decide) (by decide) false) 2 0 s (.accepted item) ∧
        Ends (fun s => mpscPbufAlloc (shortPackets 4 (by decide) (by decide) false) s 2 false false) s (.accepted item)) ↔
        RoomAhead (shortPackets 4 (by decide) (by decide) false) s 2) :=
  Lib.Runs.exists_pair_that (R := fun _ os => waiting os = [] ∧ holding os = none) (by decide +kernel)
    fun _ _ hrun hend => (alloc_unpended_iff (by decide) zeros (by decide +kernel) hrun hend.1 hend.2 (by decide) 0).2

/-- Three words fit into the empty buffer, but the call with a timeout pads the end and then waits. -/
theorem alloc_pends_when_empty : ∃ s os,
    run (shortPackets 4 (by decide) (by decide) false) (mpscPbufInit zeros) twoWords = some (s, os) ∧
      waiting os = [] ∧ holding os = none ∧
      ∀ sem item, ¬ Unpended (shortPackets 4 (by decide) (by decide) false) 3 sem s (.accepted item) := by
  set cfg := shortPackets 4 (by decide) (by decide) false
  refine Lib.Runs.exists_pair_that (R := fun s os => (waiting os = [] ∧ holding os = none) ∧ ¬RoomAhead cfg s 3) (by decide +kernel)
    fun s os hrun ⟨hend, hroom⟩ => ⟨hend.1, hend.2, fun sem item hends => hroom ?_⟩
  obtain ⟨cs, hinv, _⟩ := run_books (by decide) zeros (by decide +kernel) hrun
  exact hinv.roomAhead_of_unpended (by decide) (by decide) hends

end RtosKernel.Zephyr.MpscPbuf
