import RtosKernel.Zephyr.MpscPbufRuns

/-! # The loops of the producers

A call goes round its loop until there is room. A round without room pads the ring to its end, drops the first
part, or turns a claimed packet to the end and drops what was behind it. -/
namespace RtosKernel.Zephyr.MpscPbuf
open Lib.Window Lib.RingRecords

/-- The loop of a call, round after round with nothing in between. -/
inductive Ends (round : Buffer → Buffer × Turn) : Buffer → Turn → Prop
  | last {s : Buffer} {t : Turn} (h : (round s).2 = t) (ht : ∀ d, t ≠ .again d) : Ends round s t
  | more {s : Buffer} {d : Option Dropped} {t : Turn} (h : (round s).2 = .again d) (rest : Ends round (round s).1 t) :
    Ends round s t

/-- What the loops have in common that store or allocate `wlen` words. -/
structure Looping (cfg : Config) (wlen : Nat) (round : Buffer → Buffer × Turn) : Prop where
  enough : ∀ s, wlen ≤ (freeSpace cfg s).1 → (round s).2 = .accepted s.tmpWrIdx
  wrap : ∀ s, (freeSpace cfg s).1 < wlen → (freeSpace cfg s).2 = true →
    round s = (addSkipItem cfg s (freeSpace cfg s).1, .again none)
  full : ∀ s, (freeSpace cfg s).1 < wlen → (freeSpace cfg s).2 = false → round s = dropTurn cfg s (freeSpace cfg s).1

/-- The part is in the buffer, and what is read for its length is its length. -/
def Chunk.Known (cfg : Config) (buf : Nat → Word) (p : Nat) (c : Chunk) : Prop :=
  c.At cfg buf p ∧ ∀ e b, c = .packet e b → cfg.getWlen (fun k => buf (p + k)) = e.words.length

/-- The parts of the ring. Packets are dropped in overwrite mode only. -/
structure Ring (cfg : Config) (s : Buffer) (cs : List Chunk) : Prop where
  rd_lt : s.rdIdx < cfg.size
  fits : total Chunk.len cs < cfg.size
  placed : Laid cfg.size Chunk.len (Chunk.Known cfg) s.buf s.rdIdx cs
  tmpWr : s.tmpWrIdx = (s.rdIdx + total Chunk.len cs) % cfg.size
  mode : ∀ e b, .packet e b ∈ cs → cfg.overwrite = true

/-- Where the parts are. -/
structure Parts (cfg : Config) (s : Buffer) (cs : List Chunk) : Prop where
  rd_lt : s.rdIdx < cfg.size
  fits : total Chunk.len cs < cfg.size
  placed : Placed cfg s.buf s.rdIdx cs
  tmpWr : s.tmpWrIdx = (s.rdIdx + total Chunk.len cs) % cfg.size

variable {cfg : Config} {s s' : Buffer} {cs cs' : List Chunk} {wlen : Nat} {round : Buffer → Buffer × Turn}

section
variable (hlt : wlen < cfg.size) (wait timedOut : Bool)
include hlt

theorem mpscPbufAlloc_enough (hfree : wlen ≤ (freeSpace cfg s).1) :
    (mpscPbufAlloc cfg s wlen wait timedOut).2 = .accepted s.tmpWrIdx := by
  simp only [mpscPbufAlloc, if_neg (show ¬ wlen > cfg.size - 1 by omega)]
  rw [if_pos hfree]

theorem mpscPbufAlloc_wrap (hfree : (freeSpace cfg s).1 < wlen) (hwrap : (freeSpace cfg s).2 = true) :
    mpscPbufAlloc cfg s wlen wait timedOut = (addSkipItem cfg s (freeSpace cfg s).1, .again none) := by
  simp only [mpscPbufAlloc, if_neg (show ¬ wlen > cfg.size - 1 by omega)]
  rw [if_neg (by omega), if_pos hwrap]

theorem mpscPbufAlloc_full (hfree : (freeSpace cfg s).1 < wlen) (hwrap : (freeSpace cfg s).2 = false) :
    mpscPbufAlloc cfg s wlen wait timedOut =
      if wait then (s, if timedOut then .rejected else .again none) else dropTurn cfg s (freeSpace cfg s).1 := by
  simp only [mpscPbufAlloc, if_neg (show ¬ wlen > cfg.size - 1 by omega)]
  rw [if_neg (by omega), if_neg (by simp [hwrap])]

end

theorem looping_alloc (hlt : wlen < cfg.size) : Looping cfg wlen fun s => mpscPbufAlloc cfg s wlen false false where
  enough _ hfree := mpscPbufAlloc_enough hlt false false hfree
  wrap _ hfree hwrap := mpscPbufAlloc_wrap hlt false false hfree hwrap
  full _ hfree hwrap := mpscPbufAlloc_full hlt false false hfree hwrap

theorem looping_putData (data : List Word) : Looping cfg data.length fun s => mpscPbufPutData cfg s data where
  enough s hfree := by
    simp only [mpscPbufPutData, putWords]
    rw [if_pos hfree]
  wrap s hfree hwrap := by
    simp only [mpscPbufPutData, putWords]
    rw [if_neg (by omega), if_pos hwrap]
  full s hfree hwrap := by
    simp only [mpscPbufPutData, putWords]
    rw [if_neg (by omega), if_neg (by simp [hwrap])]

/-! ## The parts -/

theorem local_known : Local Chunk.len (Chunk.Known cfg) := by
  intro buf buf' p c hbuf h
  obtain ⟨hat, hlen⟩ := h
  refine ⟨local_at buf buf' p c hbuf hat, fun e b hc => ?_⟩
  subst hc
  have hl := hlen e b rfl
  have hsame : SameWords e.words.length (fun k => buf (p + k)) (fun k => buf' (p + k)) := .of_eq hbuf
  rw [cfg.getWlen_reads (fun k => buf (p + k)) _ (by rw [hl]; exact hat.2.1) (by rw [hl]; exact hsame), hl]

theorem Inv.ring (h : Inv cfg s cs) (hset : ∀ o ∈ s.opens, cfg.getWlen (s.item o.1) = o.2)
    (hmode : ∀ e b, .packet e b ∈ cs → cfg.overwrite = true) : Ring cfg s cs := by
  refine ⟨h.rd_lt, h.fits, h.placed.imp_at fun x hx => ⟨(h.placed.at hx).2, fun e b hc => ?_⟩, h.tmpWr, hmode⟩
  have hat := (h.placed.at hx).2
  have hmem := mem_of_positions hx
  obtain ⟨p, c⟩ := x
  subst hc
  cases hcom : e.committed with
  | true => exact hat.2.2.2.2.2.2 hcom
  | false =>
    have hopen : (e.item, e.words.length) ∈ s.opens := by
      rw [h.opens]
      exact List.mem_filterMap.mpr ⟨_, hmem, Chunk.open?_open b hcom⟩
    have hlen := hset _ hopen
    rw [hat.1] at hlen
    exact hlen

theorem Ring.tmpWr_lt (h : Ring cfg s cs) : s.tmpWrIdx < cfg.size := by
  rw [h.tmpWr]
  exact Nat.mod_lt _ (by have := h.rd_lt; omega)

theorem Inv.parts (h : Inv cfg s cs) : Parts cfg s cs := ⟨h.rd_lt, h.fits, h.placed, h.tmpWr⟩

theorem Ring.parts (h : Ring cfg s cs) : Parts cfg s cs :=
  ⟨h.rd_lt, h.fits, h.placed.imp_at fun _ hx => (h.placed.at hx).2.1, h.tmpWr⟩

theorem Parts.at {l r : List Chunk} {c : Chunk} (h : Parts cfg s (l ++ c :: r)) :
    (s.rdIdx + total Chunk.len l) % cfg.size + c.len ≤ cfg.size ∧
      c.At cfg s.buf ((s.rdIdx + total Chunk.len l) % cfg.size) := by
  obtain ⟨_, hle, hat, _⟩ := (laid_append h.rd_lt).mp h.placed
  exact ⟨hle, hat⟩

theorem freeSpace_wrap (hwrap : (freeSpace cfg s).2 = true) :
    (freeSpace cfg s).1 = cfg.size - s.tmpWrIdx ∧ 0 < s.rdIdx ∧ s.rdIdx ≤ s.tmpWrIdx := by
  unfold freeSpace at hwrap ⊢
  split
  · rw [if_pos ‹_›] at hwrap
    cases hwrap
  · split
    · rw [if_neg ‹_›, if_pos ‹_›] at hwrap
      cases hwrap
    · exact ⟨rfl, by omega, by omega⟩

/-! ## One round -/

/-- What a round without room does to the parts, and to `tmp_wr_idx`. -/
inductive Onward (wrap : Bool) (tmpWr tmpWr' : Nat) : List Chunk → List Chunk → Prop
  | pad {cs : List Chunk} {n : Nat} (hwrap : wrap = true) (h0 : tmpWr' = 0) : Onward wrap tmpWr tmpWr' cs (cs ++ [.pad n])
  | drop {c : Chunk} {cs : List Chunk} (hwrap : wrap = false) (hc : c.claimed? = none) (hsame : tmpWr' = tmpWr) :
    Onward wrap tmpWr tmpWr' (c :: cs) cs
  | turn {e : Entry} {c : Chunk} {cs ds : List Chunk} {n : Nat} (hwrap : wrap = false) (hds : cs ++ [.pad n] = c :: ds) :
    Onward wrap tmpWr tmpWr' (.packet e true :: cs) (ds ++ [.packet e true])

theorem Ring.dropFirst {c : Chunk} (h : Ring cfg s (c :: cs)) (hc : c.claimed? = none) (f : Nat) :
    ∃ d, dropTurn cfg s f = (dropWords cfg s c.len, .again (some d)) := by
  obtain ⟨hat, hlen⟩ := h.placed.2.1
  cases c with
  | pad n =>
    have hn : n ≠ 0 := Nat.one_le_iff_ne_zero.mp hat.1
    exact ⟨_, dropTurn_skip (getSkip_pad hat) hn⟩
  | packet e b =>
    cases b with
    | true => cases hc
    | false =>
      exact ⟨_, dropTurn_packet (getSkip_packet hat) (h.mode e false (List.mem_cons_self ..)) (hlen e false rfl) hat.2.2.2.2.1⟩

section
variable (hsize : cfg.size ≤ 2 ^ 30)
include hsize

theorem Ring.addSkip (h : Ring cfg s cs) (hwrap : (freeSpace cfg s).2 = true) :
    Ring cfg (addSkipItem cfg s (freeSpace cfg s).1) (cs ++ [.pad (freeSpace cfg s).1]) ∧
      (addSkipItem cfg s (freeSpace cfg s).1).tmpWrIdx = 0 := by
  obtain ⟨hle, hfits, hpos, _⟩ := freeSpace_spec h.rd_lt h.fits h.tmpWr
  obtain ⟨hfree, _, _⟩ := freeSpace_wrap hwrap
  have hpos := hpos hwrap
  have htmp : idxInc cfg s.tmpWrIdx (freeSpace cfg s).1 = (s.tmpWrIdx + (freeSpace cfg s).1) % cfg.size :=
    idxInc_eq hsize h.tmpWr_lt (by omega)
  have hplaced : Laid cfg.size Chunk.len (Chunk.Known cfg) (addSkipItem cfg s (freeSpace cfg s).1).buf s.rdIdx
      (cs ++ [.pad (freeSpace cfg s).1]) := by
    refine h.placed.snoc local_known h.rd_lt hfits.le (by rw [← h.tmpWr]; exact hle) ?_ fun x hx => ?_
    · rw [← h.tmpWr]
      exact ⟨⟨hpos, by omega, Function.update_self ..⟩, fun e b hc => by cases hc⟩
    · rw [← h.tmpWr] at hx
      refine Function.update_of_ne ?_ _ _
      intro hx0
      simp only [Chunk.len_pad] at hx
      omega
  refine ⟨⟨h.rd_lt, by simpa using hfits, hplaced, ?_, fun e b hmem => ?_⟩, ?_⟩
  · rw [total_append, total_cons, total_nil, Nat.add_zero, Chunk.len_pad]
    show idxInc cfg s.tmpWrIdx _ = _
    rw [htmp]
    conv_lhs => rw [h.tmpWr]
    exact mod_step ..
  · rcases List.mem_append.mp hmem with hmem | hmem
    · exact h.mode e b hmem
    · cases List.mem_singleton.mp hmem
  · show idxInc cfg s.tmpWrIdx _ = 0
    rw [htmp, hfree, Nat.add_sub_cancel' h.tmpWr_lt.le, Nat.mod_self]

theorem Ring.pop {c : Chunk} (h : Ring cfg s (c :: cs)) : Ring cfg (dropWords cfg s c.len) cs := by
  have hfits := h.fits
  rw [total_cons] at hfits
  have hrd : (dropWords cfg s c.len).rdIdx = (s.rdIdx + c.len) % cfg.size := idxInc_eq hsize h.rd_lt (by omega)
  refine ⟨?_, by omega, ?_, ?_, fun e b hmem => h.mode e b (List.mem_cons_of_mem _ hmem)⟩
  · rw [hrd]
    exact Nat.mod_lt _ (by omega)
  · rw [hrd]
    exact h.placed.tail local_known h.rd_lt h.fits.le fun _ _ => rfl
  · rw [hrd, mod_step, ← total_cons]
    exact h.tmpWr

theorem Ring.dropClaimed {e : Entry} (h : Ring cfg s (.packet e true :: cs)) {f : Nat}
    (hfull : total Chunk.len (.packet e true :: cs) + f + 1 = cfg.size) (hle : s.tmpWrIdx + f + 1 ≤ cfg.size)
    {c : Chunk} {ds : List Chunk} (hds : cs ++ [.pad (f + 1)] = c :: ds) :
    (∃ d, (dropTurn cfg s f).2 = .again d) ∧ Ring cfg (dropTurn cfg s f).1 (ds ++ [.packet e true]) := by
  obtain ⟨hat, hlen⟩ := h.placed.2.1
  have how := h.mode e true (List.mem_cons_self ..)
  have hrd := h.rd_lt
  set n := e.words.length with hn
  have hpos : 1 ≤ n := hat.2.1
  have hwords : n + total Chunk.len cs + f + 1 = cfg.size := by rw [total_cons] at hfull; exact hfull
  have hnext : idxInc cfg s.rdIdx n = (s.rdIdx + n) % cfg.size := idxInc_eq hsize hrd (by omega)
  have hrot := placed_jumped local_known hrd h.placed h.tmpWr hfull hle
    ⟨⟨by omega, by omega, Function.update_self ..⟩, fun e b hc => by cases hc⟩ hds
  obtain ⟨_, ⟨hcat, hclen⟩, hrest⟩ := hrot
  have hlens : c.len + total Chunk.len ds = total Chunk.len cs + (f + 1) := total_turned Chunk.len hds
  have hcpos := len_pos hcat
  -- the code adds the length that it reads behind the claimed packet
  have hturn : ∃ d, dropTurn cfg s f = (dropWords cfg (jumped cfg s f n) (n + c.len), .again (some d)) := by
    have hdrop := dropTurn_busy (f := f) (getSkip_packet hat) how (hlen e true rfl) hat.2.2.2.2.1 hnext
    cases c with
    | pad k =>
      rw [getSkip_pad hcat, if_pos (by have := hcat.1; omega)] at hdrop
      exact ⟨_, hdrop⟩
    | packet e2 b =>
      have hread : cfg.getWlen ((jumped cfg s f n).item ((s.rdIdx + n) % cfg.size)) = e2.words.length := hclen e2 b rfl
      rw [getSkip_packet hcat, if_neg (by simp), hread] at hdrop
      exact ⟨_, hdrop⟩
  obtain ⟨d, hturn⟩ := hturn
  obtain ⟨hrd', htmpWr⟩ := tmpWr_jumped hsize (f := f) (n := n) (j := c.len) hrd h.tmpWr (by omega) (by omega) (by omega)
    (m := total Chunk.len (ds ++ [.packet e true])) (by
      simp only [total_append, total_cons, total_nil, Chunk.len_packet, ← hn]
      omega)
  rw [hturn]
  refine ⟨⟨_, rfl⟩, ?_, ?_, ?_, htmpWr, fun e b hmem => how⟩
  · show (dropWords cfg (jumped cfg s f n) (n + c.len)).rdIdx < cfg.size
    rw [hrd']
    exact Nat.mod_lt _ (by omega)
  · simp only [total_append, total_cons, total_nil, Chunk.len_packet, ← hn]
    omega
  · show Laid cfg.size Chunk.len (Chunk.Known cfg) _ (dropWords cfg (jumped cfg s f n) (n + c.len)).rdIdx _
    rw [hrd']
    exact hrest

theorem Ring.onward (hloop : Looping cfg wlen round) (h : Ring cfg s cs) (hfree : (freeSpace cfg s).1 < wlen)
    (hlt : wlen < cfg.size) : ∃ d cs', (round s).2 = .again d ∧ Ring cfg (round s).1 cs' ∧
      Onward (freeSpace cfg s).2 s.tmpWrIdx (round s).1.tmpWrIdx cs cs' := by
  cases hwrap : (freeSpace cfg s).2 with
  | true =>
    rw [hloop.wrap s hfree hwrap]
    obtain ⟨hring, h0⟩ := h.addSkip hsize hwrap
    exact ⟨none, _, rfl, hring, .pad rfl h0⟩
  | false =>
    rw [hloop.full s hfree hwrap]
    obtain ⟨hfull, hle⟩ := (freeSpace_spec h.rd_lt h.fits h.tmpWr).2.2.2 hwrap
    cases cs with
    | nil =>
      rw [total_nil] at hfull
      omega
    | cons c cs =>
      cases hc : c.claimed? with
      | none =>
        obtain ⟨d, hturn⟩ := h.dropFirst hc (freeSpace cfg s).1
        rw [hturn]
        exact ⟨_, cs, rfl, h.pop hsize, .drop rfl hc rfl⟩
      | some e =>
        obtain rfl : c = .packet e true := by
          cases c with
          | pad n => cases hc
          | packet e2 b =>
            cases b with
            | false => cases hc
            | true =>
              cases hc
              rfl
        obtain ⟨c, ds, hds⟩ := List.exists_cons_of_ne_nil (show cs ++ [Chunk.pad ((freeSpace cfg s).1 + 1)] ≠ [] by simp)
        obtain ⟨⟨d, hturn⟩, hring⟩ := h.dropClaimed hsize hfull hle hds
        exact ⟨d, _, hturn, hring, .turn rfl hds⟩

end

end RtosKernel.Zephyr.MpscPbuf
