import RtosKernel.Zephyr.MpscPbuf

/-! # What is in the packet buffer

From `rd_idx` to `tmp_wr_idx` the ring holds packets and padding. `wr_idx` is behind `rd_idx` by the words of
everything that is not under construction: with commits out of order it points into the middle of a packet. -/
namespace RtosKernel.Zephyr.MpscPbuf
open Lib.Window Lib.RingRecords List Function

/-- A packet in the buffer: its words without the bits of the buffer. -/
structure Entry where
  item : Nat
  words : List Word
  committed : Bool
  deriving DecidableEq

inductive Chunk
  | pad (wlen : Nat)
  | packet (e : Entry) (claimed : Bool)

def Chunk.len : Chunk → Nat
  | .pad n => n
  | .packet e _ => e.words.length

/-- The words it adds to `wr_idx`. -/
def Chunk.settled : Chunk → Nat
  | .pad n => n
  | .packet e _ => if e.committed then e.words.length else 0

/-- The packet that is still to be claimed. -/
def Chunk.pending? : Chunk → Option Entry
  | .packet e false => some e
  | _ => none

/-- The packet that the consumer holds. -/
def Chunk.claimed? : Chunk → Option Entry
  | .packet e true => some e
  | _ => none

/-- The packet that a producer holds. -/
def Chunk.open? : Chunk → Option (Nat × Nat)
  | .packet e _ => if e.committed then none else some (e.item, e.words.length)
  | .pad _ => none

section
variable (n : Nat) (e : Entry) (b : Bool)

@[simp] theorem Chunk.len_pad : (Chunk.pad n).len = n := rfl

@[simp] theorem Chunk.len_packet : (Chunk.packet e b).len = e.words.length := rfl

@[simp] theorem Chunk.settled_pad : (Chunk.pad n).settled = n := rfl

@[simp] theorem Chunk.open?_pad : (Chunk.pad n).open? = none := rfl

@[simp] theorem Chunk.pending?_pad : (Chunk.pad n).pending? = none := rfl

@[simp] theorem Chunk.pending?_claimed : (Chunk.packet e true).pending? = none := rfl

@[simp] theorem Chunk.pending?_unclaimed : (Chunk.packet e false).pending? = some e := rfl

@[simp] theorem Chunk.claimed?_pad : (Chunk.pad n).claimed? = none := rfl

@[simp] theorem Chunk.claimed?_claimed : (Chunk.packet e true).claimed? = some e := rfl

@[simp] theorem Chunk.claimed?_unclaimed : (Chunk.packet e false).claimed? = none := rfl

variable {e}

theorem Chunk.settled_committed (h : e.committed = true) : (Chunk.packet e b).settled = e.words.length := if_pos h

theorem Chunk.settled_open (h : e.committed = false) : (Chunk.packet e b).settled = 0 := by
  simp [Chunk.settled, h]

theorem Chunk.open?_committed (h : e.committed = true) : (Chunk.packet e b).open? = none := if_pos h

theorem Chunk.open?_open (h : e.committed = false) : (Chunk.packet e b).open? = some (e.item, e.words.length) := by
  simp [Chunk.open?, h]

end

/-- The chunk is in the buffer at index `p`. -/
def Chunk.At (cfg : Config) (buf : Nat → Word) (p : Nat) : Chunk → Prop
  | .pad n => 1 ≤ n ∧ n < 2 ^ 30 ∧ buf p = skipWord n
  | .packet e c => e.item = p ∧ 1 ≤ e.words.length ∧
      payload ((range e.words.length).map fun k => buf (p + k)) = e.words ∧
      (buf p).valid = e.committed ∧ (buf p).busy = c ∧ (c = true → e.committed = true) ∧
      (e.committed = true → cfg.getWlen (fun k => buf (p + k)) = e.words.length)

variable {cfg : Config} {s : Buffer} {cs : List Chunk}

abbrev Placed (cfg : Config) (buf : Nat → Word) (p : Nat) (cs : List Chunk) : Prop :=
  Laid cfg.size Chunk.len (Chunk.At cfg) buf p cs

/-- The state of the buffer: the parts `cs` from `rd_idx` on. -/
structure Inv (cfg : Config) (s : Buffer) (cs : List Chunk) : Prop where
  rd_lt : s.rdIdx < cfg.size
  fits : total Chunk.len cs < cfg.size
  placed : Placed cfg s.buf s.rdIdx cs
  tmpWr : s.tmpWrIdx = (s.rdIdx + total Chunk.len cs) % cfg.size
  wr : s.wrIdx = (s.rdIdx + total Chunk.settled cs) % cfg.size
  opens : s.opens = cs.filterMap Chunk.open?
  held : s.held.toList = (cs.filterMap Chunk.claimed?).map Entry.item
  tmpRd : (s.tmpRdIdx = s.rdIdx ∧ (cfg.overwrite = false → s.held = none)) ∨
    ∃ e cs', cs = .packet e true :: cs' ∧ s.tmpRdIdx = (s.rdIdx + e.words.length) % cfg.size

/-! ## Words and indices -/

@[simp] theorem data_data (w : Word) : w.data.data = w.data := rfl

@[simp] theorem length_payload (ws : List Word) : (payload ws).length = ws.length := by
  cases ws <;> rfl

theorem payload_congr {m m' : Nat → Word} {n : Nat} (h : SameWords n m m') :
    payload ((range n).map m') = payload ((range n).map m) := by
  cases n with
  | zero => rfl
  | succ n =>
    rw [range_succ_eq_map]
    simp only [map_cons, map_map, payload]
    have h0 : (m 0).data = (m' 0).data := by simpa using h 0 (by omega)
    rw [h0]
    congr 1
    refine map_congr_left fun i hi => ?_
    have := h (i + 1) (by have := mem_range.mp hi; omega)
    simpa using this.symm

theorem SameWords.of_eq {m m' : Nat → Word} {n : Nat} (h : ∀ k < n, m' k = m k) : SameWords n m m' := by
  intro i hi
  rw [h i hi]
  split <;> rfl

theorem getSkip_skipWord {n : Nat} (h : n < 2 ^ 30) : getSkip (skipWord n) = n := by
  exact Nat.mod_eq_of_lt h

theorem local_at : Local Chunk.len (Chunk.At cfg) := by
  intro buf buf' p c hbuf h
  cases c with
  | pad n =>
    obtain ⟨h1, h2, h3⟩ := h
    have h0 := hbuf 0 h1
    exact ⟨h1, h2, h0.trans h3⟩
  | packet e c =>
    obtain ⟨hitem, hpos, hwords, hvalid, hbusy, hc, hlen⟩ := h
    have h0 := hbuf 0 hpos
    rw [Nat.add_zero] at h0
    have hsame : SameWords e.words.length (fun k => buf (p + k)) (fun k => buf' (p + k)) := .of_eq hbuf
    refine ⟨hitem, hpos, ?_, by rw [h0]; exact hvalid, by rw [h0]; exact hbusy, hc, fun hcom => ?_⟩
    · rw [payload_congr hsame]
      exact hwords
    · have hl := hlen hcom
      rw [cfg.getWlen_reads (fun k => buf (p + k)) _ (by rw [hl]; exact hpos) (by rw [hl]; exact hsame), hl]

theorem idxInc_eq (hsize : cfg.size ≤ 2 ^ 30) {idx val : Nat} (hidx : idx < cfg.size) (hval : val ≤ cfg.size) :
    idxInc cfg idx val = (idx + val) % cfg.size := by
  have hlt : (idx + val) % 2 ^ 32 = idx + val := Nat.mod_eq_of_lt (by omega)
  unfold idxInc
  rw [hlt]
  by_cases hpow : cfg.isPow2 = true
  · have h0 : cfg.size &&& (cfg.size - 1) = 0 := of_decide_eq_true hpow
    obtain ⟨k, hk⟩ := (Nat.and_sub_one_eq_zero_iff_isPowerOfTwo (by omega)).mp h0
    simp only [if_pos hpow]
    rw [hk, Nat.and_two_pow_sub_one_eq_mod]
  · simp only [if_neg hpow]
    rw [mod_of_lt_two (by omega)]
    split <;> split <;> omega

theorem freeSpace_spec {k : Nat} (hrd : s.rdIdx < cfg.size) (hfits : k < cfg.size)
    (htmp : s.tmpWrIdx = (s.rdIdx + k) % cfg.size) :
    s.tmpWrIdx + (freeSpace cfg s).1 ≤ cfg.size ∧ k + (freeSpace cfg s).1 < cfg.size ∧
      ((freeSpace cfg s).2 = true → 1 ≤ (freeSpace cfg s).1) ∧
      ((freeSpace cfg s).2 = false → k + (freeSpace cfg s).1 + 1 = cfg.size ∧
        s.tmpWrIdx + (freeSpace cfg s).1 + 1 ≤ cfg.size) := by
  rw [mod_of_lt_two (by omega)] at htmp
  unfold freeSpace
  split
  · simp only [Bool.false_eq_true, false_implies, true_and, true_implies]
    split at htmp <;> omega
  · split
    · simp only [Bool.false_eq_true, false_implies, true_and, true_implies]
      split at htmp <;> omega
    · rename_i hle hne
      have heq : s.tmpWrIdx = s.rdIdx + k ∧ s.tmpWrIdx < cfg.size := by
        split at htmp <;> omega
      refine ⟨?_, ?_, fun _ => ?_, fun hf => by cases hf⟩ <;> dsimp only <;> omega

theorem Inv.tmpWr_lt (h : Inv cfg s cs) : s.tmpWrIdx < cfg.size := by
  rw [h.tmpWr]
  exact Nat.mod_lt _ (by have := h.rd_lt; omega)

theorem Inv.wr_lt (h : Inv cfg s cs) : s.wrIdx < cfg.size := by
  rw [h.wr]
  exact Nat.mod_lt _ (by have := h.rd_lt; omega)

theorem settled_le (cs : List Chunk) : total Chunk.settled cs ≤ total Chunk.len cs := by
  induction cs with
  | nil => simp
  | cons c cs ih =>
    have hc : c.settled ≤ c.len := by
      cases c with
      | pad n => exact le_rfl
      | packet e b =>
        simp only [Chunk.settled, Chunk.len]
        split <;> omega
    simp only [total_cons]
    omega

theorem map_packetItem (ws : List Word) : (range ws.length).map (packetItem ws) = ws := by
  refine ext_getElem (by simp) fun i hi hi' => ?_
  simp [packetItem, getD_eq_getElem?_getD, hi']

/-! ## Parts are added -/

theorem step_mod (hsize : cfg.size ≤ 2 ^ 30) {idx n k : Nat} (hidx : idx < cfg.size)
    {p : Nat} (hp : idx = (p + n) % cfg.size) (hk : k ≤ cfg.size) : idxInc cfg idx k = (p + (n + k)) % cfg.size := by
  rw [idxInc_eq hsize hidx hk, hp, mod_step]

section
variable (hsize : cfg.size ≤ 2 ^ 30)
include hsize

theorem Inv.snoc (h : Inv cfg s cs) {c : Chunk} {s' : Buffer} (hrd : s'.rdIdx = s.rdIdx)
    (htmpRd : s'.tmpRdIdx = s.tmpRdIdx) (hheld : s'.held = s.held) (hclaimed : c.claimed? = none)
    (hopens : s'.opens = s.opens ++ c.open?.toList) (htmpWr : s'.tmpWrIdx = idxInc cfg s.tmpWrIdx c.len)
    (hwr : s'.wrIdx = (s.wrIdx + c.settled) % cfg.size) (hfits : total Chunk.len cs + c.len < cfg.size)
    (hle : s.tmpWrIdx + c.len ≤ cfg.size) (hat : c.At cfg s'.buf s.tmpWrIdx)
    (hbuf : ∀ x, x < s.tmpWrIdx ∨ s.tmpWrIdx + c.len ≤ x → s'.buf x = s.buf x) : Inv cfg s' (cs ++ [c]) := by
  refine ⟨hrd ▸ h.rd_lt, by simpa using hfits, ?_, ?_, ?_, ?_, ?_, ?_⟩
  · rw [h.tmpWr] at hle hat hbuf
    rw [hrd]
    exact h.placed.snoc local_at h.rd_lt hfits.le hle hat hbuf
  · rw [total_append, total_cons, total_nil, Nat.add_zero, htmpWr, hrd]
    exact step_mod hsize h.tmpWr_lt h.tmpWr (by omega)
  · rw [total_append, total_cons, total_nil, Nat.add_zero, hwr, hrd, h.wr, mod_step]
  · rw [hopens, h.opens, filterMap_append]
    cases hc : c.open? <;> simp [hc]
  · rw [hheld, h.held]
    simp [hclaimed]
  · rw [hheld, htmpRd, hrd]
    refine h.tmpRd.imp id ?_
    rintro ⟨e, cs', rfl, hrd⟩
    exact ⟨e, cs' ++ [c], rfl, hrd⟩

theorem Inv.addSkip (h : Inv cfg s cs) {n : Nat} (hn : 1 ≤ n) (hfits : total Chunk.len cs + n < cfg.size)
    (hle : s.tmpWrIdx + n ≤ cfg.size) : Inv cfg (addSkipItem cfg s n) (cs ++ [.pad n]) := by
  refine h.snoc hsize (c := .pad n) rfl rfl rfl rfl (by simp [addSkipItem, Chunk.open?]) rfl
    (idxInc_eq hsize h.wr_lt (by omega)) hfits hle ⟨hn, by omega, update_self ..⟩ fun x hx => ?_
  refine update_of_ne ?_ _ _
  rintro rfl
  simp only [Chunk.len] at hx
  omega

theorem Inv.store (h : Inv cfg s cs) {ws : List Word} (hws : IsPacket cfg ws)
    (hfits : total Chunk.len cs + ws.length < cfg.size) (hle : s.tmpWrIdx + ws.length ≤ cfg.size) :
    Inv cfg (storeWords cfg s ws) (cs ++ [.packet ⟨s.tmpWrIdx, payload ws, true⟩ false]) := by
  obtain ⟨hne, hvalid, hbusy, hlen⟩ := hws
  have hpos : 1 ≤ ws.length := length_pos_iff.mpr hne
  have hview : ∀ k < ws.length, memcpy s.buf s.tmpWrIdx ws (s.tmpWrIdx + k) = packetItem ws k := by
    intro k hk
    rw [memcpy_inside (by omega) (by omega)]
    simp [packetItem, getD_eq_getElem?_getD, hk]
  have hfirst := hview 0 hpos
  rw [Nat.add_zero] at hfirst
  have hsame : SameWords ws.length (packetItem ws) (fun k => memcpy s.buf s.tmpWrIdx ws (s.tmpWrIdx + k)) := .of_eq hview
  refine h.snoc hsize (c := .packet ⟨s.tmpWrIdx, payload ws, true⟩ false) rfl rfl rfl rfl
    (by simp [storeWords, Chunk.open?]) (by simp [storeWords, Chunk.len]) ?_ (by simpa [Chunk.len] using hfits)
    (by simpa [Chunk.len] using hle) ?_ fun x hx => ?_
  · simp only [storeWords, Chunk.settled, if_true, length_payload]
    exact idxInc_eq hsize h.wr_lt (by omega)
  · simp only [Chunk.At, storeWords, length_payload, hfirst]
    refine ⟨trivial, hpos, ?_, hvalid, hbusy, fun _ => trivial, fun _ => ?_⟩
    · rw [payload_congr hsame, map_packetItem]
    · rw [cfg.getWlen_reads (packetItem ws) _ (by omega) (by rw [hlen]; exact hsame), hlen]
  · refine memcpy_outside ?_
    simpa [Chunk.len] using hx

theorem Inv.alloc (h : Inv cfg s cs) {wlen : Nat} (hpos : 1 ≤ wlen) (hfits : total Chunk.len cs + wlen < cfg.size)
    (hle : s.tmpWrIdx + wlen ≤ cfg.size) :
    Inv cfg { s with
      buf := Function.update s.buf s.tmpWrIdx (s.buf s.tmpWrIdx).data
      tmpWrIdx := idxInc cfg s.tmpWrIdx wlen
      opens := s.opens ++ [(s.tmpWrIdx, wlen)] }
      (cs ++ [.packet ⟨s.tmpWrIdx, s.words s.tmpWrIdx wlen, false⟩ false]) := by
  have hlen : (s.words s.tmpWrIdx wlen).length = wlen := by simp [Buffer.words]
  refine h.snoc hsize (c := .packet ⟨s.tmpWrIdx, s.words s.tmpWrIdx wlen, false⟩ false) rfl rfl rfl rfl
    (by simp [Chunk.open?, hlen]) (by simp [Chunk.len, hlen]) ?_ (by simpa [Chunk.len, hlen] using hfits)
    (by simpa [Chunk.len, hlen] using hle) ?_ fun x hx => ?_
  · exact (Nat.mod_eq_of_lt h.wr_lt).symm
  · simp only [Chunk.At, hlen, update_self]
    refine ⟨trivial, hpos, ?_, rfl, rfl, fun hc => (by cases hc), fun hc => (by cases hc)⟩
    refine payload_congr (m := s.item s.tmpWrIdx) fun i hi => ?_
    cases i with
    | zero => simp [Buffer.item, Word.data]
    | succ i =>
      simp only [Nat.succ_ne_zero, if_false, Buffer.item]
      exact (update_of_ne (by omega) _ _).symm
  · refine update_of_ne ?_ _ _
    rintro rfl
    simp only [Chunk.len, hlen] at hx
    omega

theorem Inv.pop {c : Chunk} (h : Inv cfg s (c :: cs)) {s' : Buffer} (hset : c.settled = c.len) (hopen : c.open? = none)
    (hrd : s'.rdIdx = idxInc cfg s.rdIdx c.len) (htmpRd : s'.tmpRdIdx = s'.rdIdx)
    (htmpWr : s'.tmpWrIdx = s.tmpWrIdx) (hwr : s'.wrIdx = s.wrIdx) (hopens : s'.opens = s.opens)
    (hheld : s'.held.toList = (cs.filterMap Chunk.claimed?).map Entry.item)
    (hmode : cfg.overwrite = false → s'.held = none)
    (hbuf : ∀ x, x < s.rdIdx ∨ s.rdIdx + c.len ≤ x → s'.buf x = s.buf x) : Inv cfg s' cs := by
  have hfits := h.fits
  simp only [total_cons] at hfits
  have hrd' : s'.rdIdx = (s.rdIdx + c.len) % cfg.size := hrd.trans (idxInc_eq hsize h.rd_lt (by omega))
  refine ⟨?_, by omega, ?_, ?_, ?_, ?_, hheld, .inl ⟨htmpRd, hmode⟩⟩
  · rw [hrd']
    exact Nat.mod_lt _ (by have := h.rd_lt; omega)
  · rw [hrd']
    exact h.placed.tail local_at h.rd_lt h.fits.le hbuf
  · rw [htmpWr, h.tmpWr, hrd', mod_step, total_cons]
  · rw [hwr, h.wr, hrd', mod_step, total_cons, hset]
  · rw [hopens, h.opens]
    simp [hopen]

end

/-! ## A part changes in place -/

section
variable {l r : List Chunk} {c : Chunk}

theorem Inv.at (h : Inv cfg s (l ++ c :: r)) : (s.rdIdx + total Chunk.len l) % cfg.size + c.len ≤ cfg.size ∧
    c.At cfg s.buf ((s.rdIdx + total Chunk.len l) % cfg.size) := by
  obtain ⟨_, hle, hat, _⟩ := (laid_append h.rd_lt).mp h.placed
  exact ⟨hle, hat⟩

theorem Inv.modify (h : Inv cfg s (l ++ c :: r)) {d : Chunk} {s' : Buffer} (hlen : d.len = c.len)
    (hrd : s'.rdIdx = s.rdIdx) (htmpWr : s'.tmpWrIdx = s.tmpWrIdx)
    (hwr : s'.wrIdx = (s.rdIdx + total Chunk.settled (l ++ d :: r)) % cfg.size)
    (hopens : s'.opens = (l ++ d :: r).filterMap Chunk.open?)
    (hheld : s'.held.toList = ((l ++ d :: r).filterMap Chunk.claimed?).map Entry.item)
    (htmpRd : (s'.tmpRdIdx = s'.rdIdx ∧ (cfg.overwrite = false → s'.held = none)) ∨
      ∃ e cs', l ++ d :: r = .packet e true :: cs' ∧ s'.tmpRdIdx = (s'.rdIdx + e.words.length) % cfg.size)
    (hat : d.At cfg s'.buf ((s.rdIdx + total Chunk.len l) % cfg.size))
    (hbuf : ∀ x, x < (s.rdIdx + total Chunk.len l) % cfg.size ∨
      (s.rdIdx + total Chunk.len l) % cfg.size + c.len ≤ x → s'.buf x = s.buf x) : Inv cfg s' (l ++ d :: r) := by
  have htotal : total Chunk.len (l ++ d :: r) = total Chunk.len (l ++ c :: r) := by simp [hlen]
  refine ⟨hrd ▸ h.rd_lt, htotal ▸ h.fits, ?_, ?_, hrd ▸ hwr, hopens, hheld, htmpRd⟩
  · rw [hrd]
    exact h.placed.modify local_at h.rd_lt h.fits.le hlen hat hbuf
  · rw [htmpWr, h.tmpWr, htotal, hrd]

theorem Inv.item_ne {e e2 : Entry} {b b2 : Bool} (h : Inv cfg s (l ++ .packet e b :: r))
    (h2 : .packet e2 b2 ∈ l ∨ .packet e2 b2 ∈ r) : e2.item ≠ e.item := by
  have hall := h.placed.apart h.rd_lt h.fits.le
  rw [positions_append h.rd_lt, pairwise_append] at hall
  obtain ⟨_, hright, hcross⟩ := hall
  simp only [positions, pairwise_cons] at hright
  obtain ⟨hl, hc⟩ := (laid_append h.rd_lt).mp h.placed
  obtain ⟨hle, hat, hr⟩ := hc
  have hlen : 1 ≤ e.words.length := hat.2.1
  rcases h2 with h2 | h2
  · obtain ⟨q, hq⟩ := mem_positions cfg.size Chunk.len h2 s.rdIdx
    have hat2 := (hl.at hq).2
    have hapart := hcross _ hq _ (mem_cons_self ..)
    have hlen2 : 1 ≤ e2.words.length := hat2.2.1
    rw [hat.1, hat2.1]
    simp only [Chunk.len] at hapart
    omega
  · obtain ⟨q, hq⟩ := mem_positions cfg.size Chunk.len h2
      (((s.rdIdx + total Chunk.len l) % cfg.size + (Chunk.packet e b).len) % cfg.size)
    have hat2 := (hr.at hq).2
    have hapart := hright.1 _ hq
    have hlen2 : 1 ≤ e2.words.length := hat2.2.1
    rw [hat.1, hat2.1]
    simp only [Chunk.len] at hapart
    omega

end

theorem Inv.find_open (h : Inv cfg s cs) {o : Nat × Nat} (ho : o ∈ s.opens) :
    ∃ l e r, cs = l ++ .packet e false :: r ∧ e.item = o.1 ∧ e.words.length = o.2 ∧ e.committed = false := by
  rw [h.opens] at ho
  obtain ⟨c, hc, hopen⟩ := mem_filterMap.mp ho
  obtain ⟨l, r, rfl⟩ := append_of_mem hc
  have hat := h.at.2
  cases c with
  | pad n => cases hopen
  | packet e b =>
    simp only [Chunk.open?] at hopen
    split at hopen
    · cases hopen
    rename_i hcom
    cases hopen
    cases b with
    | true => exact absurd (hat.2.2.2.2.2.1 rfl) hcom
    | false => exact ⟨l, e, r, rfl, rfl, rfl, by simpa using hcom⟩

theorem Inv.find_held (h : Inv cfg s cs) {item : Nat} (hi : s.held = some item) :
    ∃ l e r, cs = l ++ .packet e true :: r ∧ e.item = item ∧ l.filterMap Chunk.claimed? = [] ∧
      r.filterMap Chunk.claimed? = [] := by
  have hheld := h.held
  rw [hi] at hheld
  have hone : ∃ e, cs.filterMap Chunk.claimed? = [e] ∧ e.item = item := by
    cases hl : cs.filterMap Chunk.claimed? with
    | nil => simp [hl] at hheld
    | cons e es =>
      cases es with
      | nil => exact ⟨e, rfl, by simpa [hl] using hheld.symm⟩
      | cons => simp [hl] at hheld
  obtain ⟨e, hone, hitem⟩ := hone
  obtain ⟨c, hc, hclaimed⟩ := mem_filterMap.mp (hone ▸ mem_singleton_self e : e ∈ cs.filterMap Chunk.claimed?)
  obtain ⟨l, r, rfl⟩ := append_of_mem hc
  cases c with
  | pad n => cases hclaimed
  | packet e' b =>
    cases b with
    | false => cases hclaimed
    | true =>
      cases hclaimed
      simp only [filterMap_append, filterMap_cons, Chunk.claimed?] at hone
      refine ⟨l, e, r, rfl, hitem, ?_⟩
      cases hl : l.filterMap Chunk.claimed? with
      | nil =>
        rw [hl] at hone
        simpa using hone
      | cons x xs => simp [hl] at hone

theorem Inv.one_claimed {e : Entry} (h : Inv cfg s (.packet e true :: cs)) : cs.filterMap Chunk.claimed? = [] := by
  have hheld := h.held
  rw [filterMap_cons_some (Chunk.claimed?_claimed e), map_cons] at hheld
  cases hcl : cs.filterMap Chunk.claimed? with
  | nil => rfl
  | cons x xs =>
    rw [hcl] at hheld
    cases hs : s.held with
    | none => simp [hs] at hheld
    | some i => simp [hs] at hheld

theorem len_pos {buf : Nat → Word} {p : Nat} {c : Chunk} (h : c.At cfg buf p) : 1 ≤ c.len := by
  cases c with
  | pad n => exact h.1
  | packet e b => exact h.2.1

theorem Inv.tmpRd_eq (h : Inv cfg s cs) (hheld : s.held = none) : s.tmpRdIdx = s.rdIdx := by
  rcases h.tmpRd with hrd | ⟨e, cs', rfl, _⟩
  · exact hrd.1
  · have := h.held
    simp [hheld, Chunk.claimed?] at this

theorem Inv.unclaimed {c : Chunk} (h : Inv cfg s (c :: cs)) (hc : c.claimed? = none) :
    s.tmpRdIdx = s.rdIdx ∧ (cfg.overwrite = false → s.held = none) := by
  rcases h.tmpRd with hrd | ⟨e, cs', heq, _⟩
  · exact hrd
  · cases heq
    cases hc

theorem getSkip_packet {buf : Nat → Word} {p : Nat} {e : Entry} {b : Bool} (h : (Chunk.packet e b).At cfg buf p) :
    getSkip (buf p) = 0 := by
  obtain ⟨_, _, _, hvalid, hbusy, hc, _⟩ := h
  unfold getSkip
  rw [hvalid, hbusy]
  cases b with
  | false => simp
  | true => simp [hc rfl]

theorem getSkip_pad {buf : Nat → Word} {p n : Nat} (h : (Chunk.pad n).At cfg buf p) : getSkip (buf p) = n := by
  rw [h.2.2, getSkip_skipWord h.2.1]

theorem words_packet {p : Nat} {e : Entry} {b : Bool} (h : (Chunk.packet e b).At cfg s.buf p) :
    s.words p e.words.length = e.words := h.2.2.1

end RtosKernel.Zephyr.MpscPbuf
