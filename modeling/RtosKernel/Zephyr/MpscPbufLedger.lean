import RtosKernel.Zephyr.MpscPbufInvariant

/-! # The packets in order

What the buffer is for: the packets wait in the order they were accepted, are
claimed or dropped from the front, and only committed ones. Each step of the
buffer is a move of this ledger, as long as the step does not meet one of the
cases that the code gets wrong (`StepOk`). -/
namespace RtosKernel.Zephyr.MpscPbuf
open Lib.Window Lib.RingRecords List Function

variable {L L' : Ledger} {os : List Obs} {c : Chunk} {f n k : Nat} {e : Entry} {w : Word}

/-- The packets that wait, oldest first, and the packet that the consumer holds. -/
structure Ledger where
  pending : List Entry
  held : Option Entry

inductive Moves : Ledger → Obs → Ledger → Prop
  | stored {p : List Entry} {h : Option Entry} {item : Nat} {words : List Word} :
    Moves ⟨p, h⟩ (.stored item words) ⟨p ++ [⟨item, words, true⟩], h⟩
  | allocated {p : List Entry} {h : Option Entry} {item : Nat} {words : List Word} :
    Moves ⟨p, h⟩ (.allocated item words) ⟨p ++ [⟨item, words, false⟩], h⟩
  | filled {l r : List Entry} {h : Option Entry} {item k : Nat} {words : List Word} {w : Word} (hk : k < words.length)
    (hone : ∀ e ∈ l ++ r, e.item ≠ item) :
    Moves ⟨l ++ ⟨item, words, false⟩ :: r, h⟩ (.filled item k w) ⟨l ++ ⟨item, payload (words.set k w), false⟩ :: r, h⟩
  | committed {l r : List Entry} {h : Option Entry} {item : Nat} {words : List Word} (hone : ∀ e ∈ l ++ r, e.item ≠ item) :
    Moves ⟨l ++ ⟨item, words, false⟩ :: r, h⟩ (.committed item) ⟨l ++ ⟨item, words, true⟩ :: r, h⟩
  | claimed {p : List Entry} {item : Nat} {words : List Word} :
    Moves ⟨⟨item, words, true⟩ :: p, none⟩ (.claimed item words) ⟨p, some ⟨item, words, true⟩⟩
  | null {p : List Entry} (hp : ∀ e ∈ p.head?, e.committed = false) : Moves ⟨p, none⟩ .null ⟨p, none⟩
  | freed {p : List Entry} {e : Entry} : Moves ⟨p, some e⟩ (.freed e.item) ⟨p, none⟩
  | dropped {p : List Entry} {h : Option Entry} {item : Nat} {words : List Word} :
    Moves ⟨⟨item, words, true⟩ :: p, h⟩ (.dropped item words) ⟨p, h⟩

def Accepts (L : Ledger) : List Obs → Ledger → Prop
  | [], L' => L' = L
  | o :: os, L' => ∃ L1, Moves L o L1 ∧ Accepts L1 os L'

/-- The ledger of the parts of the ring. -/
def ledger (cs : List Chunk) : Ledger := ⟨cs.filterMap Chunk.pending?, (cs.filterMap Chunk.claimed?).head?⟩

/-! ## What the code gets wrong -/

/-- An oversized packet is not put into an empty buffer whose first word reads as padding. In
overwrite mode no oversized packet is put at all. -/
def PutOk (cfg : Config) (s : Buffer) (wlen : Nat) : Prop :=
  wlen < cfg.size ∨ (cfg.overwrite = false ∧ ¬ (s.rdIdx = 0 ∧ s.tmpWrIdx = 0 ∧ getSkip (s.buf 0) ≠ 0))

/-- The packet that is to be dropped for one of `wlen` words is not under construction: the first one, or the
one behind it if that is claimed. -/
def DropOk (cfg : Config) (s : Buffer) (wlen : Nat) : Prop :=
  cfg.overwrite = true → (freeSpace cfg s).1 < wlen → (freeSpace cfg s).2 = false →
    ∀ o ∈ s.opens, o.1 ≠ s.rdIdx ∧ (s.held = some s.rdIdx → o.1 ≠ idxInc cfg s.rdIdx (cfg.getWlen (s.item s.rdIdx)))

/-- A packet is not freed when dropping has come round to it. -/
def FreeOk (cfg : Config) (s : Buffer) : Prop :=
  cfg.overwrite = true → ¬ (s.held = some s.rdIdx ∧ s.tmpRdIdx = s.rdIdx)

/-- The step does not meet one of these cases. -/
def StepOk (cfg : Config) (s : Buffer) : Event → Prop
  | .putWord _ => PutOk cfg s 1 ∧ DropOk cfg s 1
  | .putWordExt _ data => PutOk cfg s (data.length + 1) ∧ DropOk cfg s (data.length + 1)
  | .putData data => PutOk cfg s data.length ∧ DropOk cfg s data.length
  | .alloc wlen wait _ => wait = false → DropOk cfg s wlen
  | .free => FreeOk cfg s
  | _ => True

variable {cfg : Config} {s s' : Buffer} {cs : List Chunk}

/-- The outcome of a step: the parts of the ring, and the moves. -/
def Follows (cfg : Config) (cs : List Chunk) (s' : Buffer) (os : List Obs) : Prop :=
  ∃ cs', Inv cfg s' cs' ∧ Accepts (ledger cs) os (ledger cs')

theorem accepts_nil (h : L' = L) : Accepts L [] L' := h

theorem accepts_one {o : Obs} (h : Moves L o L') : Accepts L [o] L' := ⟨L', h, rfl⟩

theorem accepts_append {L1 : Ledger} {os' : List Obs} (h : Accepts L os L1) (h' : Accepts L1 os' L') :
    Accepts L (os ++ os') L' := by
  induction os generalizing L with
  | nil =>
    cases h
    exact h'
  | cons o os ih =>
    obtain ⟨L2, hmove, hrest⟩ := h
    exact ⟨L2, hmove, ih hrest⟩

/-- What is seen of a round of a call that puts a packet. -/
def putObs (cfg : Config) (s : Buffer) (words : List Word) : Turn → List Obs
  | .accepted item => [.stored item (payload words)]
  | t => t.obs cfg s

theorem ledger_snoc (hc : c.claimed? = none) :
    ledger (cs ++ [c]) = ⟨(ledger cs).pending ++ c.pending?.toList, (ledger cs).held⟩ := by
  cases hp : c.pending? with
  | none => simp [ledger, hc, hp]
  | some e => simp [ledger, hc, hp]

theorem mpscPbufPutWord_eq (h : Inv cfg s cs) (item : Word) : mpscPbufPutWord cfg s item = putWords cfg s [item] := by
  obtain ⟨_, _, hpos, _⟩ := freeSpace_spec h.rd_lt h.fits h.tmpWr
  simp only [mpscPbufPutWord, putWords, length_singleton]
  by_cases hfree : (freeSpace cfg s).1 = 0
  · cases hwrap : (freeSpace cfg s).2 with
    | true =>
      have := hpos hwrap
      omega
    | false => simp [hfree]
  · rw [if_pos hfree, if_pos (by omega)]

/-! ## Dropping -/

theorem dropTurn_skip (hskip : getSkip (s.buf s.rdIdx) = n) (hn : n ≠ 0) :
    dropTurn cfg s f = (dropWords cfg s n, .again (some ⟨s.rdIdx, false⟩)) := by
  simp [dropTurn, dropItemLocked, hskip, hn]

theorem dropTurn_packet (hskip : getSkip (s.buf s.rdIdx) = 0) (how : cfg.overwrite = true)
    (hlen : cfg.getWlen (s.item s.rdIdx) = n) (hbusy : (s.buf s.rdIdx).busy = false) :
    dropTurn cfg s f = (dropWords cfg s n, .again (some ⟨s.rdIdx, true⟩)) := by
  simp [dropTurn, dropItemLocked, hskip, how, hlen, hbusy]

/-- The buffer after padding was put in front of the claimed packet and the write indices moved over it. -/
def jumped (cfg : Config) (s : Buffer) (f n : Nat) : Buffer :=
  let s := addSkipItem cfg s (f + 1)
  { s with wrIdx := idxInc cfg s.wrIdx n, tmpWrIdx := idxInc cfg s.tmpWrIdx n }

theorem dropTurn_busy (hskip : getSkip (s.buf s.rdIdx) = 0) (how : cfg.overwrite = true)
    (hlen : cfg.getWlen (s.item s.rdIdx) = n) (hbusy : (s.buf s.rdIdx).busy = true)
    {i : Nat} (hi : idxInc cfg s.rdIdx n = i) :
    dropTurn cfg s f = if getSkip ((jumped cfg s f n).buf i) ≠ 0 then
        (dropWords cfg (jumped cfg s f n) (n + getSkip ((jumped cfg s f n).buf i)), .again (some ⟨i, false⟩))
      else (dropWords cfg (jumped cfg s f n) (n + cfg.getWlen ((jumped cfg s f n).item i)), .again (some ⟨i, true⟩)) := by
  subst hi
  have hitem : dropItemLocked cfg s f = if getSkip ((jumped cfg s f n).buf (idxInc cfg s.rdIdx n)) ≠ 0 then
        (dropWords cfg (jumped cfg s f n) (n + getSkip ((jumped cfg s f n).buf (idxInc cfg s.rdIdx n))),
          some ⟨idxInc cfg s.rdIdx n, false⟩)
      else (dropWords cfg (jumped cfg s f n) (n + cfg.getWlen ((jumped cfg s f n).item (idxInc cfg s.rdIdx n))),
          some ⟨idxInc cfg s.rdIdx n, true⟩) := by
    simp only [dropItemLocked, hskip, ne_eq, not_true_eq_false, if_false, how, if_true, hlen, hbusy]
    rfl
  by_cases hskip2 : getSkip ((jumped cfg s f n).buf (idxInc cfg s.rdIdx n)) ≠ 0
  · rw [dropTurn, hitem, if_pos hskip2, if_pos hskip2]
  · rw [dropTurn, hitem, if_neg hskip2, if_neg hskip2]

theorem total_turned (g : Chunk → Nat) {pad : Chunk} {ds : List Chunk} (hds : cs ++ [pad] = c :: ds) :
    g c + total g ds = total g cs + g pad := by
  have hsum := congrArg (total g) hds
  rw [total_append, total_cons, total_cons, total_nil] at hsum
  exact hsum.symm

section
variable (hsize : cfg.size ≤ 2 ^ 30)
include hsize

theorem dropWords_pop (h : Inv cfg s (c :: cs)) (hset : c.settled = c.len) (hopen : c.open? = none)
    (hclaimed : c.claimed? = none) : Inv cfg (dropWords cfg s c.len) cs := by
  refine h.pop hsize hset hopen rfl rfl rfl rfl rfl ?_ (h.unclaimed hclaimed).2 fun _ _ => rfl
  show s.held.toList = _
  rw [h.held]
  simp [hclaimed]

theorem drop_first (h : Inv cfg s (c :: cs)) (hclaimed : c.claimed? = none)
    (hopen : cfg.overwrite = true → c.open? = none) :
    Follows cfg (c :: cs) (dropTurn cfg s f).1 ((dropTurn cfg s f).2.obs cfg s) := by
  have hat : c.At cfg s.buf s.rdIdx := h.placed.2.1
  cases c with
  | pad n =>
    have hskip := getSkip_pad hat
    have hn : n ≠ 0 := by have := hat.1; omega
    rw [dropTurn_skip hskip hn]
    exact ⟨cs, dropWords_pop hsize h rfl rfl rfl, accepts_nil rfl⟩
  | packet e b =>
    cases b with
    | true => cases hclaimed
    | false =>
      have hskip := getSkip_packet hat
      by_cases how : cfg.overwrite = true
      · have hcom : e.committed = true := by
          have := hopen how
          simpa [Chunk.open?] using this
        have hlen : cfg.getWlen (s.item s.rdIdx) = e.words.length := hat.2.2.2.2.2.2 hcom
        have hbusy : (s.buf s.rdIdx).busy = false := hat.2.2.2.2.1
        rw [dropTurn_packet hskip how hlen hbusy]
        refine ⟨cs, dropWords_pop hsize h (by simp [Chunk.settled, Chunk.len, hcom]) (hopen how) rfl, accepts_one ?_⟩
        rw [hlen, words_packet hat]
        obtain ⟨item, words, committed⟩ := e
        have hitem : item = s.rdIdx := hat.1
        subst hitem
        cases hcom
        exact .dropped
      · have hdrop : dropTurn cfg s f = (s, .rejected) := by
          simp [dropTurn, dropItemLocked, hskip, how]
        rw [hdrop]
        exact ⟨_, h, accepts_nil rfl⟩

omit hsize in
theorem placed_jumped {P : (Nat → Word) → Nat → Chunk → Prop} (hP : Local Chunk.len P)
    (hrd : s.rdIdx < cfg.size) (hplaced : Laid cfg.size Chunk.len P s.buf s.rdIdx (.packet e true :: cs))
    (htmp : s.tmpWrIdx = (s.rdIdx + total Chunk.len (.packet e true :: cs)) % cfg.size)
    (hfull : total Chunk.len (.packet e true :: cs) + f + 1 = cfg.size) (hle : s.tmpWrIdx + f + 1 ≤ cfg.size)
    (hpad : P (jumped cfg s f e.words.length).buf s.tmpWrIdx (.pad (f + 1))) {ds : List Chunk} (hds : cs ++ [.pad (f + 1)] = c :: ds) :
    Laid cfg.size Chunk.len P (jumped cfg s f e.words.length).buf ((s.rdIdx + e.words.length) % cfg.size)
      (c :: (ds ++ [.packet e true])) := by
  -- the ring is full
  have hring : Laid cfg.size Chunk.len P (jumped cfg s f e.words.length).buf s.rdIdx
      (.packet e true :: cs ++ [.pad (f + 1)]) := by
    refine hplaced.snoc hP hrd hfull.le ?_ ?_ fun x hx => ?_
    · rw [← htmp]
      exact hle
    · rw [← htmp]
      exact hpad
    · refine update_of_ne ?_ _ _
      rintro rfl
      simp only [Chunk.len] at hx
      omega
  have hlen : total Chunk.len (.packet e true :: (cs ++ [.pad (f + 1)])) = cfg.size := by
    rw [total_cons, total_append, total_cons, total_nil, ← hfull, total_cons, Chunk.len_pad]
    omega
  rw [← cons_append, ← hds]
  exact hring.rotate hrd hlen

theorem tmpWr_jumped (hrd : s.rdIdx < cfg.size) (htmp : s.tmpWrIdx = (s.rdIdx + k) % cfg.size)
    {j : Nat} (hf : f + 1 ≤ cfg.size) (hn : n ≤ cfg.size) (hnj : n + j ≤ cfg.size) {m : Nat} (hm : k + (f + 1) + n = n + j + m) :
    (dropWords cfg (jumped cfg s f n) (n + j)).rdIdx = ((s.rdIdx + n) % cfg.size + j) % cfg.size ∧
      (dropWords cfg (jumped cfg s f n) (n + j)).tmpWrIdx =
        ((dropWords cfg (jumped cfg s f n) (n + j)).rdIdx + m) % cfg.size := by
  have hpos : 0 < cfg.size := by omega
  have hrd' : (dropWords cfg (jumped cfg s f n) (n + j)).rdIdx = ((s.rdIdx + n) % cfg.size + j) % cfg.size := by
    show idxInc cfg s.rdIdx (n + j) = _
    rw [idxInc_eq hsize hrd hnj, mod_step]
  refine ⟨hrd', ?_⟩
  have htmp_lt : s.tmpWrIdx < cfg.size := htmp ▸ Nat.mod_lt _ hpos
  rw [hrd', mod_step, mod_step]
  show idxInc cfg (idxInc cfg s.tmpWrIdx (f + 1)) n = _
  rw [idxInc_eq hsize htmp_lt hf, idxInc_eq hsize (Nat.mod_lt _ hpos) hn, htmp, mod_step, mod_step]
  exact congrArg (· % cfg.size) (by omega)

/-- The claimed packet goes to the end, behind padding that fills the rest of the ring, and the part
that was behind it is given up. -/
theorem jumped_drop (h : Inv cfg s (.packet e true :: cs)) (how : cfg.overwrite = true)
    (hfull : total Chunk.len (.packet e true :: cs) + f + 1 = cfg.size) (hle : s.tmpWrIdx + f + 1 ≤ cfg.size)
    {ds : List Chunk} (hds : cs ++ [.pad (f + 1)] = c :: ds) (hset : c.settled = c.len)
    (hopen : c.open? = none) (hclaimed : c.claimed? = none) :
    c.At cfg (jumped cfg s f e.words.length).buf ((s.rdIdx + e.words.length) % cfg.size) ∧
      Inv cfg (dropWords cfg (jumped cfg s f e.words.length) (e.words.length + c.len)) (ds ++ [.packet e true]) := by
  set n := e.words.length with hn
  have hat : (Chunk.packet e true).At cfg s.buf s.rdIdx := h.placed.2.1
  have hcom : e.committed = true := hat.2.2.2.2.2.1 rfl
  have hpos : 1 ≤ n := hat.2.1
  have hrd := h.rd_lt
  have hwords : n + total Chunk.len cs + f + 1 = cfg.size := by rw [total_cons] at hfull; exact hfull
  have hrot : Placed cfg (jumped cfg s f n).buf ((s.rdIdx + n) % cfg.size) (c :: (ds ++ [.packet e true])) :=
    placed_jumped local_at hrd h.placed h.tmpWr hfull hle ⟨by omega, by omega, update_self ..⟩ hds
  have hlens : c.len + total Chunk.len ds = total Chunk.len cs + (f + 1) := total_turned Chunk.len hds
  have hsets : c.len + total Chunk.settled ds = total Chunk.settled cs + (f + 1) :=
    hset ▸ total_turned Chunk.settled hds
  have hc := len_pos hrot.2.1
  refine ⟨hrot.2.1, ?_⟩
  obtain ⟨hrd', htmpWr⟩ := tmpWr_jumped hsize (f := f) (n := n) (j := c.len) hrd h.tmpWr (by omega) (by omega) (by omega)
    (m := total Chunk.len (ds ++ [.packet e true])) (by
      simp only [total_append, total_cons, total_nil, Chunk.len_packet, ← hn]
      omega)
  have hplaced := hrot.2.2
  rw [← hrd'] at hplaced
  refine ⟨?_, ?_, hplaced, ?_, ?_, ?_, ?_, .inl ⟨rfl, fun hno => ?_⟩⟩
  · rw [hrd']
    exact Nat.mod_lt _ (by omega)
  · simp only [total_append, total_cons, total_nil, Chunk.len_packet, ← hn]
    omega
  · exact htmpWr
  · rw [hrd', mod_step, mod_step]
    show idxInc cfg (idxInc cfg s.wrIdx (f + 1)) n = _
    rw [idxInc_eq hsize h.wr_lt (by omega), idxInc_eq hsize (Nat.mod_lt _ (by omega)) (by omega),
      h.wr, mod_step, mod_step]
    simp only [total_append, total_cons, total_nil, Chunk.settled_committed true hcom, ← hn]
    congr 1
    omega
  · have hd := congrArg (List.filterMap Chunk.open?) hds
    rw [filterMap_append, filterMap_cons_none hopen] at hd
    show s.opens = _
    rw [h.opens, filterMap_cons_none (Chunk.open?_committed true hcom), filterMap_append, ← hd]
    simp [Chunk.open?_committed true hcom]
  · have hd := congrArg (List.filterMap Chunk.claimed?) hds
    rw [filterMap_append, filterMap_cons_none hclaimed] at hd
    show s.held.toList = _
    rw [h.held, filterMap_append, ← hd, h.one_claimed]
    simp [h.one_claimed]
  · rw [how] at hno
    cases hno

theorem drop_claimed (h : Inv cfg s (.packet e true :: cs)) (how : cfg.overwrite = true)
    (hfull : total Chunk.len (.packet e true :: cs) + f + 1 = cfg.size) (hle : s.tmpWrIdx + f + 1 ≤ cfg.size)
    (hopen : ∀ c ∈ cs.head?, c.open? = none) :
    Follows cfg (.packet e true :: cs) (dropTurn cfg s f).1 ((dropTurn cfg s f).2.obs cfg s) := by
  have hat : (Chunk.packet e true).At cfg s.buf s.rdIdx := h.placed.2.1
  have hlen : cfg.getWlen (s.item s.rdIdx) = e.words.length := hat.2.2.2.2.2.2 (hat.2.2.2.2.2.1 rfl)
  have hbusy : (s.buf s.rdIdx).busy = true := hat.2.2.2.2.1
  have hskip := getSkip_packet hat
  have hnext : idxInc cfg s.rdIdx e.words.length = (s.rdIdx + e.words.length) % cfg.size := by
    rw [total_cons, Chunk.len_packet] at hfull
    exact idxInc_eq hsize h.rd_lt (by omega)
  set s1 := jumped cfg s f e.words.length with hs1
  set i := (s.rdIdx + e.words.length) % cfg.size with hi
  have hdrop := dropTurn_busy (f := f) hskip how hlen hbusy hnext
  have hledger : ∀ ds : List Chunk, ds.filterMap Chunk.claimed? = [] →
      ledger (ds ++ [Chunk.packet e true]) = ⟨ds.filterMap Chunk.pending?, some e⟩ := fun ds hds => by
    simp [ledger, hds]
  have hold : ledger (.packet e true :: cs) = ⟨(cs ++ [Chunk.pad (f + 1)]).filterMap Chunk.pending?, some e⟩ := by
    simp [ledger, filterMap_cons]
  have hcl : (cs ++ [Chunk.pad (f + 1)]).filterMap Chunk.claimed? = [] := by simp [h.one_claimed]
  -- the part behind the claimed packet, which may be the new padding
  obtain ⟨c, ds, hds⟩ : ∃ c ds, cs ++ [Chunk.pad (f + 1)] = c :: ds := by
    cases cs with
    | nil => exact ⟨_, _, rfl⟩
    | cons c cs => exact ⟨c, cs ++ [Chunk.pad (f + 1)], rfl⟩
  rw [hds] at hcl hold
  have hclds : c.claimed? = none ∧ ds.filterMap Chunk.claimed? = [] := by
    cases hc : c.claimed? with
    | none => exact ⟨rfl, by simpa [filterMap_cons, hc] using hcl⟩
    | some x => simp [hc] at hcl
  have hcopen : c.open? = none := by
    cases cs with
    | nil =>
      cases hds
      rfl
    | cons x cs =>
      cases hds
      exact hopen _ rfl
  cases c with
  | pad k =>
    obtain ⟨hpad, hinv⟩ := jumped_drop hsize h how hfull hle hds rfl rfl rfl
    have hk : getSkip (s1.buf i) = k := getSkip_pad hpad
    have hk0 : k ≠ 0 := by have := hpad.1; omega
    have hturn : dropTurn cfg s f = (dropWords cfg s1 (e.words.length + k), .again (some ⟨i, false⟩)) := by
      rw [hdrop, ← hs1, hk, if_pos hk0]
    rw [hturn]
    refine ⟨_, hinv, accepts_nil ?_⟩
    rw [hledger ds hclds.2, hold]
    rfl
  | packet e2 b2 =>
    cases b2 with
    | true => cases hclds.1
    | false =>
      have hcom : e2.committed = true := by simpa [Chunk.open?] using hcopen
      obtain ⟨hpkt, hinv⟩ := jumped_drop hsize h how hfull hle hds (Chunk.settled_committed false hcom) hcopen rfl
      have hlen2 : cfg.getWlen (s1.item i) = e2.words.length := hpkt.2.2.2.2.2.2 hcom
      have hskip2 : getSkip (s1.buf i) = 0 := getSkip_packet hpkt
      have hturn : dropTurn cfg s f = (dropWords cfg s1 (e.words.length + e2.words.length), .again (some ⟨i, true⟩)) := by
        rw [hdrop, ← hs1, hskip2, if_neg (by simp), hlen2]
      rw [hturn]
      refine ⟨_, hinv, accepts_one ?_⟩
      -- it was there before the padding was written
      have hbefore : (Chunk.packet e2 false).At cfg s.buf i := by
        cases cs with
        | nil => cases hds
        | cons x cs =>
          cases hds
          exact h.placed.2.2.2.1
      have hlen3 : cfg.getWlen (s.item i) = e2.words.length := hbefore.2.2.2.2.2.2 hcom
      rw [hlen3, words_packet hbefore, hledger ds hclds.2, hold]
      obtain ⟨item, words, committed⟩ := e2
      have hitem : item = i := hbefore.1
      subst hitem
      cases hcom
      exact .dropped

theorem dropTurn_follows (h : Inv cfg s cs) {wlen : Nat} (hfree : (freeSpace cfg s).1 < wlen)
    (hwrap : (freeSpace cfg s).2 = false) (hput : PutOk cfg s wlen) (hdrop : DropOk cfg s wlen) :
    Follows cfg cs (dropTurn cfg s (freeSpace cfg s).1).1 ((dropTurn cfg s (freeSpace cfg s).1).2.obs cfg s) := by
  obtain ⟨_, _, _, hspace⟩ := freeSpace_spec h.rd_lt h.fits h.tmpWr
  obtain ⟨hfull, hle⟩ := hspace hwrap
  cases cs with
  | nil =>
    -- an oversized packet, and nothing to drop
    rw [total_nil, Nat.zero_add] at hfull
    obtain ⟨how, hno⟩ := hput.resolve_left (by omega)
    have htmp : s.tmpWrIdx = s.rdIdx := by
      rw [h.tmpWr, total_nil, Nat.add_zero, Nat.mod_eq_of_lt h.rd_lt]
    have hrd : s.rdIdx = 0 := by
      by_contra hne
      rw [freeSpace, if_neg (by omega), if_neg hne] at hwrap
      cases hwrap
    have hskip : getSkip (s.buf 0) = 0 := by
      by_contra hne
      exact hno ⟨hrd, htmp.trans hrd, hne⟩
    have hturn : dropTurn cfg s (freeSpace cfg s).1 = (s, .rejected) := by
      simp [dropTurn, dropItemLocked, hrd, hskip, how]
    rw [hturn]
    exact ⟨[], h, accepts_nil rfl⟩
  | cons c cs =>
    have hitem : ∀ e b, c = .packet e b → e.item = s.rdIdx := fun e b hc => by
      subst hc
      exact h.placed.2.1.1
    cases hc : c.claimed? with
    | none =>
      refine drop_first hsize h hc fun how => ?_
      cases ho : c.open? with
      | none => rfl
      | some o =>
        have hmem : o ∈ s.opens := by
          rw [h.opens, filterMap_cons_some ho]
          exact mem_cons_self ..
        have hne := (hdrop how hfree hwrap o hmem).1
        cases c with
        | pad n => cases ho
        | packet e b =>
          simp only [Chunk.open?] at ho
          split at ho
          · cases ho
          · cases ho
            exact absurd (hitem e b rfl) hne
    | some e =>
      have hce : c = .packet e true := by
        cases c with
        | pad n => cases hc
        | packet e' b =>
          cases b with
          | false => cases hc
          | true =>
            cases hc
            rfl
      subst hce
      by_cases how : cfg.overwrite = true
      · refine drop_claimed hsize h how hfull hle fun x hx => ?_
        cases cs with
        | nil => cases hx
        | cons y cs =>
          cases hx
          cases ho : x.open? with
          | none => rfl
          | some o =>
            have hat := h.placed.2.1
            have hmem : o ∈ s.opens := by
              rw [h.opens]
              exact mem_filterMap.mpr ⟨x, by simp, ho⟩
            have hheld : s.held = some s.rdIdx := by
              have hh := h.held
              rw [filterMap_cons_some (Chunk.claimed?_claimed e), h.one_claimed] at hh
              cases hs : s.held with
              | none => simp [hs] at hh
              | some i =>
                have hi : i = e.item := by simpa [hs] using hh
                rw [hi, hat.1]
            have hne := (hdrop how hfree hwrap o hmem).2 hheld
            have hlen : cfg.getWlen (s.item s.rdIdx) = e.words.length := hat.2.2.2.2.2.2 (hat.2.2.2.2.2.1 rfl)
            rw [total_cons, Chunk.len_packet] at hfull
            rw [hlen, idxInc_eq hsize h.rd_lt (by omega)] at hne
            cases x with
            | pad n => cases ho
            | packet e2 b =>
              simp only [Chunk.open?] at ho
              split at ho
              · cases ho
              · cases ho
                exact absurd h.placed.2.2.2.1.1 hne
      · -- the claimed packet is not dropped
        have hturn : dropTurn cfg s (freeSpace cfg s).1 = (s, .rejected) := by
          simp [dropTurn, dropItemLocked, getSkip_packet h.placed.2.1, how]
        rw [hturn]
        exact ⟨_, h, accepts_nil rfl⟩

/-! ## Producers -/

theorem putWords_follows (h : Inv cfg s cs) {ws : List Word} (hws : IsPacket cfg ws) (hput : PutOk cfg s ws.length)
    (hdrop : DropOk cfg s ws.length) :
    Follows cfg cs (putWords cfg s ws).1 (putObs cfg s ws (putWords cfg s ws).2) := by
  obtain ⟨hle, hfits, hpos, hspace⟩ := freeSpace_spec h.rd_lt h.fits h.tmpWr
  simp only [putWords]
  by_cases hfree : (freeSpace cfg s).1 ≥ ws.length
  · rw [if_pos hfree]
    refine ⟨_, h.store hsize hws (by omega) (by omega), accepts_one ?_⟩
    rw [ledger_snoc rfl]
    exact .stored
  · rw [if_neg hfree]
    cases hwrap : (freeSpace cfg s).2 with
    | true =>
      refine ⟨_, h.addSkip hsize (hpos hwrap) hfits hle, accepts_nil ?_⟩
      rw [ledger_snoc rfl]
      exact congrArg (Ledger.mk · _) (List.append_nil _)
    | false =>
      rw [if_neg (by simp)]
      have hobs : ∀ t, t = (dropTurn cfg s (freeSpace cfg s).1).2 → putObs cfg s ws t = t.obs cfg s := by
        rintro t rfl
        unfold dropTurn
        split <;> rfl
      rw [hobs _ rfl]
      exact dropTurn_follows hsize h (by omega) hwrap hput hdrop

variable {s' : Buffer}

theorem alloc_follows (h : Inv cfg s cs) {wlen : Nat} (hpos : 1 ≤ wlen) {wait timedOut : Bool}
    (hdrop : wait = false → DropOk cfg s wlen)
    (hgo : step cfg s (.alloc wlen wait timedOut) = some (s', os)) : Follows cfg cs s' os := by
  obtain ⟨hle, hfits, hspos, hspace⟩ := freeSpace_spec h.rd_lt h.fits h.tmpWr
  simp only [step, if_pos hpos, mpscPbufAlloc] at hgo
  by_cases hbig : wlen > cfg.size - 1
  · rw [if_pos hbig] at hgo
    cases hgo
    exact ⟨cs, h, accepts_nil rfl⟩
  · rw [if_neg hbig] at hgo
    by_cases hfree : (freeSpace cfg s).1 ≥ wlen
    · rw [if_pos hfree] at hgo
      cases hgo
      refine ⟨_, h.alloc hsize hpos (by omega) (by omega), accepts_one ?_⟩
      rw [ledger_snoc rfl]
      exact .allocated
    · rw [if_neg hfree] at hgo
      cases hwrap : (freeSpace cfg s).2 with
      | true =>
        rw [hwrap, if_pos rfl] at hgo
        cases hgo
        refine ⟨_, h.addSkip hsize (hspos hwrap) hfits hle, accepts_nil ?_⟩
        rw [ledger_snoc rfl]
        exact congrArg (Ledger.mk · _) (List.append_nil _)
      | false =>
        rw [hwrap, if_neg (by simp)] at hgo
        cases wait with
        | true =>
          cases timedOut with
          | true =>
            cases hgo
            exact ⟨cs, h, accepts_nil rfl⟩
          | false =>
            cases hgo
            exact ⟨cs, h, accepts_nil rfl⟩
        | false =>
          rw [if_neg (by simp)] at hgo
          have hfollows := dropTurn_follows hsize h (by omega) hwrap (.inl (by omega)) (hdrop rfl)
          unfold dropTurn at hgo hfollows
          split at hgo <;> rename_i hd <;> rw [hd] at hfollows
          · cases hgo
            exact hfollows
          · cases hgo
            exact hfollows

end

theorem Inv.tmpRd_modify {l r : List Chunk} {c' : Chunk} (h : Inv cfg s (l ++ c :: r)) (hc : c.claimed? = none) :
    (s.tmpRdIdx = s.rdIdx ∧ (cfg.overwrite = false → s.held = none)) ∨
      ∃ e cs', l ++ c' :: r = .packet e true :: cs' ∧ s.tmpRdIdx = (s.rdIdx + e.words.length) % cfg.size := by
  cases l with
  | nil => exact .inl (h.unclaimed hc)
  | cons x l =>
    refine h.tmpRd.imp id ?_
    rintro ⟨e, cs', heq, hrd⟩
    cases heq
    exact ⟨e, l ++ c' :: r, rfl, hrd⟩

theorem ledger_middle (l r : List Chunk) (e : Entry) : ledger (l ++ .packet e false :: r) =
    ⟨l.filterMap Chunk.pending? ++ e :: r.filterMap Chunk.pending?, ((l ++ r).filterMap Chunk.claimed?).head?⟩ := by
  simp [ledger, filterMap_cons]

theorem Inv.pending_ne {l r : List Chunk} {b : Bool} (h : Inv cfg s (l ++ .packet e b :: r)) :
    ∀ x ∈ l.filterMap Chunk.pending? ++ r.filterMap Chunk.pending?, x.item ≠ e.item := by
  intro x hx
  rw [← filterMap_append] at hx
  obtain ⟨c, hc, hcx⟩ := mem_filterMap.mp hx
  cases c with
  | pad n => cases hcx
  | packet e2 b2 =>
    cases b2 with
    | true => cases hcx
    | false =>
      cases hcx
      exact h.item_ne (mem_append.mp hc)

theorem set_map_range {m : Nat → Word} :
    (range n).map (fun i => if i = k then w else m i) = ((range n).map m).set k w := by
  refine ext_getElem (by simp) fun i hi hi' => ?_
  simp only [getElem_map, getElem_range, getElem_set]
  by_cases hik : i = k
  · simp [hik]
  · rw [if_neg hik, if_neg fun h => hik h.symm]

theorem payload_set {ws : List Word} {w' : Word} (h : if k = 0 then w'.data = w.data else w' = w) :
    payload (ws.set k w') = payload ((payload ws).set k w) := by
  cases ws with
  | nil => rfl
  | cons x ws =>
    cases k with
    | zero => simpa [payload] using h
    | succ k =>
      simp only [Nat.succ_ne_zero, if_false] at h
      simp [payload, h]

theorem fill_follows (h : Inv cfg s cs) {item : Nat}
    (hgo : step cfg s (.fill item k w) = some (s', os)) : Follows cfg cs s' os := by
  simp only [step] at hgo
  split at hgo
  · rename_i hopen
    obtain ⟨o, ho, hitem, hk⟩ := hopen
    cases hgo
    obtain ⟨l, e, r, rfl, heitem, helen, hcom⟩ := h.find_open ho
    obtain ⟨hle, hat⟩ := h.at
    obtain ⟨hpos, hlen, hwords, hvalid, hbusy, _, _⟩ := id hat
    have hitem' : item = (s.rdIdx + total Chunk.len l) % cfg.size := by rw [← hpos, heitem, hitem]
    rw [← hitem'] at hle hat hpos hwords hvalid hbusy
    set w' := if k = 0 then { w with valid := (s.buf item).valid, busy := (s.buf item).busy } else w with hw'
    have hsame : if k = 0 then w'.data = w.data else w' = w := by
      by_cases hk0 : k = 0
      · rw [if_pos hk0, hw', if_pos hk0]
        rfl
      · rw [if_neg hk0, hw', if_neg hk0]
    have hbits : update s.buf (item + k) w' item = if k = 0 then w' else s.buf item := by
      by_cases hk0 : k = 0
      · subst hk0
        simp
      · rw [if_neg hk0]
        exact update_of_ne (by omega) _ _
    have hread : (fun i => update s.buf (item + k) w' (item + i)) = fun i => if i = k then w' else s.buf (item + i) := by
      funext i
      by_cases hik : i = k
      · subst hik
        simp
      · rw [if_neg hik]
        exact update_of_ne (by omega) _ _
    set e' : Entry := ⟨item, payload (e.words.set k w), false⟩ with he'
    have hlen' : e'.words.length = e.words.length := by simp [he']
    have hat' : (Chunk.packet e' false).At cfg (update s.buf (item + k) w') item := by
      refine ⟨rfl, hlen'.symm ▸ hlen, ?_, ?_, ?_, fun hc => (by cases hc), fun hc => (by cases hc)⟩
      · rw [hlen', hread, set_map_range, payload_set hsame, hwords]
      · rw [hbits]
        split
        · rename_i hk0
          rw [hw', if_pos hk0]
          exact hvalid.trans hcom
        · exact hvalid.trans hcom
      · rw [hbits]
        split
        · rename_i hk0
          rw [hw', if_pos hk0]
          exact hbusy
        · exact hbusy
    refine ⟨l ++ .packet e' false :: r, ?_, accepts_one ?_⟩
    · refine h.modify (d := .packet e' false) (by simp [hlen']) rfl rfl ?_ ?_ ?_ (h.tmpRd_modify rfl) ?_ fun x hx => ?_
      · rw [h.wr]
        simp [Chunk.settled_open false hcom, Chunk.settled_open false (show e'.committed = false from rfl)]
      · show s.opens = _
        rw [h.opens]
        simp only [filterMap_append, filterMap_cons, Chunk.open?_open false hcom,
          Chunk.open?_open false (show e'.committed = false from rfl), hlen']
        rw [show e.item = e'.item from hpos]
      · show s.held.toList = _
        rw [h.held]
        simp [filterMap_cons]
      · rw [← hitem']
        exact hat'
      · rw [← hitem', Chunk.len_packet] at hx
        exact update_of_ne (by omega) _ _
    · rw [ledger_middle, ledger_middle]
      obtain ⟨ei, ew, ec⟩ := e
      cases hcom
      have hei : ei = item := hpos
      subst hei
      refine .filled ?_ h.pending_ne
      have hw : ew.length = o.2 := helen
      omega
  · cases hgo

theorem commit_follows (hsize : cfg.size ≤ 2 ^ 30) (h : Inv cfg s cs) {item : Nat}
    (hgo : step cfg s (.commit item) = some (s', os)) : Follows cfg cs s' os := by
  simp only [step] at hgo
  split at hgo
  · rename_i hopen
    cases hgo
    obtain ⟨l, e, r, rfl, heitem, helen, hcom⟩ := h.find_open hopen
    obtain ⟨hle, hat⟩ := h.at
    obtain ⟨hpos, hlen, hwords, hvalid, hbusy, _, _⟩ := id hat
    rw [Chunk.len_packet] at hle
    have hitem' : item = (s.rdIdx + total Chunk.len l) % cfg.size := by rw [← hpos]; exact heitem.symm
    rw [← hitem'] at hle hat hpos hwords hvalid hbusy
    have hwlen : cfg.getWlen (s.item item) = e.words.length := helen.symm
    set buf := update s.buf item { s.buf item with valid := true } with hbuf
    have hsame : SameWords e.words.length (fun i => s.buf (item + i)) (fun i => buf (item + i)) := by
      intro i hi
      cases i with
      | zero => simp [hbuf, Word.data]
      | succ i =>
        exact (update_of_ne (by omega) _ _).symm
    set e' : Entry := ⟨item, e.words, true⟩ with he'
    have hat' : (Chunk.packet e' false).At cfg buf item := by
      refine ⟨rfl, hlen, ?_, by simp [hbuf, he'], by simp [hbuf]; exact hbusy, fun _ => rfl, fun _ => ?_⟩
      · rw [payload_congr hsame]
        exact hwords
      · rw [cfg.getWlen_reads (s.item item) _ (by omega) (by rw [hwlen]; exact hsame)]
        exact hwlen
    have hfits := h.fits
    refine ⟨l ++ .packet e' false :: r, ?_, accepts_one ?_⟩
    · refine h.modify (d := .packet e' false) rfl rfl rfl ?_ ?_ ?_ (h.tmpRd_modify rfl) ?_ fun x hx => ?_
      · show idxInc cfg s.wrIdx (cfg.getWlen (s.item item)) = _
        rw [hwlen, idxInc_eq hsize h.wr_lt (by omega), h.wr, mod_step]
        simp only [total_append, total_cons, Chunk.settled_open false hcom,
          Chunk.settled_committed false (show e'.committed = true from rfl)]
        congr 1
        show _ = s.rdIdx + (_ + (e.words.length + _))
        omega
      · show s.opens.filter (fun o => o.1 ≠ item) = _
        have hne : ∀ o ∈ l.filterMap Chunk.open? ++ r.filterMap Chunk.open?, o.1 ≠ item := by
          intro o ho
          obtain ⟨c, hc, hco⟩ : ∃ c, (c ∈ l ∨ c ∈ r) ∧ c.open? = some o := by
            rcases mem_append.mp ho with ho | ho
            · obtain ⟨c, hc, hco⟩ := mem_filterMap.mp ho
              exact ⟨c, .inl hc, hco⟩
            · obtain ⟨c, hc, hco⟩ := mem_filterMap.mp ho
              exact ⟨c, .inr hc, hco⟩
          cases c with
          | pad n => cases hco
          | packet e2 b2 =>
            simp only [Chunk.open?] at hco
            split at hco
            · cases hco
            · cases hco
              exact fun he => h.item_ne hc (he.trans hpos.symm)
        rw [h.opens]
        simp only [filterMap_append, filterMap_cons, Chunk.open?_open false hcom,
          Chunk.open?_committed false (show e'.committed = true from rfl), filter_append, filter_cons]
        rw [List.filter_eq_self.mpr fun o ho => by simpa using hne o (mem_append_left _ ho),
          List.filter_eq_self.mpr fun o ho => by simpa using hne o (mem_append_right _ ho)]
        simp [hpos]
      · show s.held.toList = _
        rw [h.held]
        simp [filterMap_cons]
      · rw [← hitem']
        exact hat'
      · rw [← hitem', Chunk.len_packet] at hx
        exact update_of_ne (by omega) _ _
    · rw [ledger_middle, ledger_middle]
      obtain ⟨ei, ew, ec⟩ := e
      cases hcom
      have hei : ei = item := hpos
      subst hei
      exact .committed h.pending_ne
  · cases hgo

/-! ## The consumer -/

theorem Inv.available_eq_zero (h : Inv cfg s cs) (hheld : s.held = none) :
    (available cfg s).1 = 0 ↔ total Chunk.settled cs = 0 := by
  have hrd := h.rd_lt
  have hle := settled_le cs
  have hfits := h.fits
  have hwr := h.wr
  rw [mod_of_lt_two (by omega)] at hwr
  unfold available
  rw [h.tmpRd_eq hheld]
  split
  · split at hwr <;> omega
  · split at hwr <;> omega

theorem claim_pad (hsize : cfg.size ≤ 2 ^ 30) (h : Inv cfg s (.pad n :: cs)) (hheld : s.held = none) :
    ∃ s', step cfg s .claim = some (s', []) ∧ Inv cfg s' cs ∧ s'.held = none := by
  have hat : (Chunk.pad n).At cfg s.buf s.rdIdx := h.placed.2.1
  have hskip := getSkip_pad hat
  have hinvalid : isInvalid (s.buf s.rdIdx) = false := by simp [isInvalid, hat.2.2, skipWord]
  have hn : n ≠ 0 := by have := hat.1; omega
  have hsettled : total Chunk.settled (.pad n :: cs) ≠ 0 := by
    rw [total_cons, Chunk.settled_pad]
    omega
  have havail : (available cfg s).1 ≠ 0 := mt (h.available_eq_zero hheld).mp hsettled
  refine ⟨{ s with rdIdx := idxInc cfg s.rdIdx n, tmpRdIdx := idxInc cfg s.rdIdx n }, ?_, ?_, hheld⟩
  · simp only [step, if_pos hheld, mpscPbufClaim, h.tmpRd_eq hheld]
    rw [if_neg (not_or.mpr ⟨havail, by simp [hinvalid]⟩)]
    simp [hskip, hn]
  · refine h.pop hsize rfl rfl rfl rfl rfl rfl rfl ?_ (fun _ => hheld) fun _ _ => rfl
    show s.held.toList = _
    rw [h.held]
    rfl

theorem claim_ends (h : Inv cfg s cs) (hheld : s.held = none) (hno : ∀ n cs', cs ≠ .pad n :: cs') :
    (mpscPbufClaim cfg s).2 ≠ .again := by
  have havail := h.available_eq_zero hheld
  unfold mpscPbufClaim
  rw [h.tmpRd_eq hheld]
  cases cs with
  | nil =>
    rw [if_pos (.inl (havail.mpr rfl))]
    exact fun he => by cases he
  | cons c cs =>
    cases c with
    | pad n => exact absurd rfl (hno n cs)
    | packet e b =>
      have hat : (Chunk.packet e b).At cfg s.buf s.rdIdx := h.placed.2.1
      have hskip := getSkip_packet hat
      obtain ⟨_, _, _, hvalid, hbusy, hcom, _⟩ := hat
      by_cases hgo : (available cfg s).1 = 0 ∨ isInvalid (s.buf s.rdIdx) = true
      · rw [if_pos hgo]
        exact fun he => by cases he
      · have hval : (s.buf s.rdIdx).valid = true := by
          by_contra hno
          have hval : (s.buf s.rdIdx).valid = false := Bool.not_eq_true _ ▸ hno
          have hb : (s.buf s.rdIdx).busy = false := by
            rw [hbusy]
            cases b with
            | false => rfl
            | true => rw [hvalid, hcom rfl] at hval; cases hval
          exact hgo (.inr (by simp [isInvalid, hval, hb]))
        rw [if_neg hgo, if_neg (by simp [hskip, hval])]
        exact fun he => by cases he

theorem claim_follows (hsize : cfg.size ≤ 2 ^ 30) (h : Inv cfg s cs)
    (hgo : step cfg s .claim = some (s', os)) : Follows cfg cs s' os := by
  by_cases hheld : s.held = none
  · have htmp := h.tmpRd_eq hheld
    have hnone : (cs.filterMap Chunk.claimed?) = [] := by
      have hh := h.held
      rw [hheld] at hh
      simpa using hh.symm
    have hledger : ledger cs = ⟨cs.filterMap Chunk.pending?, none⟩ := by simp only [ledger, hnone, List.head?_nil]
    have havail := h.available_eq_zero hheld
    cases cs with
    | nil =>
      simp only [step, if_pos hheld, mpscPbufClaim, htmp] at hgo
      rw [if_pos (.inl (havail.mpr rfl))] at hgo
      cases hgo
      refine ⟨[], h, accepts_one ?_⟩
      exact .null fun e he => by cases he
    | cons c cs =>
      have hat : c.At cfg s.buf s.rdIdx := h.placed.2.1
      have hpos := len_pos hat
      cases c with
      | pad n =>
        obtain ⟨s1, hstep, hinv, _⟩ := claim_pad hsize h hheld
        rw [hstep] at hgo
        cases hgo
        exact ⟨cs, hinv, accepts_nil rfl⟩
      | packet e b =>
        simp only [step, if_pos hheld, mpscPbufClaim, htmp] at hgo
        have hb : b = false := by
          cases b with
          | false => rfl
          | true => simp at hnone
        subst hb
        obtain ⟨hitem, hlen, hwords, hvalid, hbusy, _, hwlen⟩ := id hat
        cases hcom : e.committed with
        | false =>
          -- under construction
          have hinvalid : isInvalid (s.buf s.rdIdx) = true := by simp [isInvalid, hvalid, hbusy, hcom]
          rw [if_pos (.inr hinvalid)] at hgo
          cases hgo
          refine ⟨_, h, accepts_one ?_⟩
          rw [hledger]
          refine .null fun x hx => ?_
          cases hx
          exact hcom
        | true =>
          have hskip := getSkip_packet hat
          have hinvalid : isInvalid (s.buf s.rdIdx) = false := by simp [isInvalid, hvalid, hcom]
          have hsettled : total Chunk.settled (.packet e false :: cs) ≠ 0 := by
            rw [total_cons, Chunk.settled_committed false hcom]
            omega
          rw [if_neg (not_or.mpr ⟨mt havail.mp hsettled, by simp [hinvalid]⟩)] at hgo
          rw [if_neg (by simp [hskip, hvalid, hcom])] at hgo
          set buf := update s.buf s.rdIdx { s.buf s.rdIdx with busy := true } with hbuf
          have hsame : SameWords e.words.length (fun i => s.buf (s.rdIdx + i)) (fun i => buf (s.rdIdx + i)) := by
            intro i hi
            cases i with
            | zero => simp [hbuf, Word.data]
            | succ i =>
              exact (update_of_ne (by omega) _ _).symm
          have hwlen' : cfg.getWlen (fun i => buf (s.rdIdx + i)) = e.words.length := by
            rw [cfg.getWlen_reads (fun i => s.buf (s.rdIdx + i)) _ (by rw [hwlen hcom]; exact hlen)
              (by rw [hwlen hcom]; exact hsame), hwlen hcom]
          have hat' : (Chunk.packet e true).At cfg buf s.rdIdx := by
            refine ⟨hitem, hlen, ?_, by simp [hbuf]; exact hvalid, by simp [hbuf], fun _ => hcom, fun _ => hwlen'⟩
            rw [payload_congr hsame]
            exact hwords
          cases hgo
          have hfits := h.fits
          simp only [total_cons, Chunk.len_packet] at hfits
          refine ⟨.packet e true :: cs, ?_, ?_⟩
          · have hmod : (s.rdIdx + total Chunk.len []) % cfg.size = s.rdIdx := by
              rw [total_nil, Nat.add_zero, Nat.mod_eq_of_lt h.rd_lt]
            refine Inv.modify (l := []) (c := .packet e false) (d := .packet e true) h rfl rfl rfl ?_ ?_ ?_ (.inr ?_) ?_ ?_
            · exact h.wr
            · exact h.opens
            · rw [filterMap_cons_none (Chunk.claimed?_unclaimed e)] at hnone
              simp [hnone, hitem]
            · refine ⟨e, cs, rfl, ?_⟩
              rw [← idxInc_eq hsize h.rd_lt (by omega)]
              exact congrArg (idxInc cfg s.rdIdx) hwlen'
            · rw [hmod]
              exact hat'
            · intro x hx
              exact update_of_ne (by omega) _ _
          · have hgot : payload ((range e.words.length).map fun i => buf (s.rdIdx + i)) = e.words := hat'.2.2.1
            show Accepts _ [.claimed s.rdIdx (payload ((range (cfg.getWlen fun i => buf (s.rdIdx + i))).map
              fun i => buf (s.rdIdx + i)))] _
            rw [hwlen', hgot]
            refine accepts_one ?_
            rw [hledger]
            obtain ⟨ei, ew, ec⟩ := e
            cases hcom
            have hei : ei = s.rdIdx := hitem
            subst hei
            exact .claimed
  · simp [step, hheld] at hgo

theorem free_follows (hsize : cfg.size ≤ 2 ^ 30) (h : Inv cfg s cs) (hok : FreeOk cfg s)
    (hgo : step cfg s .free = some (s', os)) : Follows cfg cs s' os := by
  obtain ⟨item, hheld, heq⟩ := Option.map_eq_some_iff.mp hgo
  cases heq
  obtain ⟨l, e, r, rfl, heitem, hl, hr⟩ := h.find_held hheld
  obtain ⟨hle, hat⟩ := h.at
  obtain ⟨hpos, hlen, hwords, hvalid, hbusy, hcom, hwlen⟩ := id hat
  have hcom := hcom rfl
  have hitem' : item = (s.rdIdx + total Chunk.len l) % cfg.size := by rw [← hpos]; exact heitem.symm
  rw [← hitem'] at hle hat hpos hwords hvalid hbusy hwlen
  have hwlen : cfg.getWlen (s.item item) = e.words.length := hwlen hcom
  have hfits := h.fits
  simp only [total_append, total_cons, Chunk.len_packet] at hfits
  -- the second alternative of the read index
  have hfirst : ∀ e' cs', l ++ Chunk.packet e true :: r = .packet e' true :: cs' → l = [] := by
    intro e' cs' heq
    cases l with
    | nil => rfl
    | cons x l =>
      cases heq
      simp at hl
  have hledger : ledger (l ++ .packet e true :: r) = ⟨(l ++ r).filterMap Chunk.pending?, some e⟩ := by
    simp [ledger, filterMap_cons, hl]
  unfold mpscPbufFree
  simp only [hwlen]
  split
  · -- it is the first part
    rename_i hcond
    have hboth : l = [] ∧ s.tmpRdIdx = (s.rdIdx + e.words.length) % cfg.size := by
      rcases h.tmpRd with ⟨hrd, hno⟩ | ⟨e', cs', heq, hrd⟩
      · rcases hcond with how | hrd'
        · rw [hno how] at hheld
          cases hheld
        · by_cases how : cfg.overwrite = true
          · exact absurd ⟨hrd' ▸ hheld, hrd⟩ (hok how)
          · rw [hno (Bool.not_eq_true _ ▸ how)] at hheld
            cases hheld
      · have hnil := hfirst e' cs' heq
        subst hnil
        cases heq
        exact ⟨rfl, hrd⟩
    obtain ⟨rfl, hrd⟩ := hboth
    have hitem0 : item = s.rdIdx := by
      rw [hitem', total_nil, Nat.add_zero, Nat.mod_eq_of_lt h.rd_lt]
    refine ⟨r, Inv.pop hsize (c := .packet e true) h (Chunk.settled_committed true hcom) (Chunk.open?_committed true hcom)
      rfl ?_ rfl rfl rfl ?_ (fun _ => rfl) fun x hx => ?_, accepts_one ?_⟩
    · show s.tmpRdIdx = idxInc cfg s.rdIdx e.words.length
      rw [hrd, idxInc_eq hsize h.rd_lt (by omega)]
    · simp [hr]
    · rw [Chunk.len_packet] at hx
      exact update_of_ne (by omega) _ _
    · rw [hledger, ← hpos]
      simp only [ledger, hr, List.head?_nil, nil_append]
      exact .freed
  · -- it becomes padding
    rename_i hcond
    have hcond : ¬ cfg.overwrite = false ∧ ¬ item = s.rdIdx := not_or.mp hcond
    have hword : (⟨false, (s.buf item).busy, BitVec.ofNat 30 e.words.length⟩ : Word) = skipWord e.words.length := by
      rw [hbusy]
      rfl
    have hlen30 : e.words.length < 2 ^ 30 := by omega
    refine ⟨l ++ .pad e.words.length :: r, h.modify (d := .pad e.words.length) rfl rfl rfl ?_ ?_ ?_ (.inl ?_) ?_ fun x hx => ?_,
      accepts_one ?_⟩
    · show s.wrIdx = _
      rw [h.wr]
      simp [Chunk.settled_committed true hcom]
    · show s.opens = _
      rw [h.opens]
      simp [filterMap_cons, Chunk.open?_committed true hcom]
    · simp [filterMap_cons, hl, hr]
    · rcases h.tmpRd with ⟨hrd, hno⟩ | ⟨e', cs', heq, hrd⟩
      · exact ⟨hrd, fun _ => rfl⟩
      · have hnil := hfirst e' cs' heq
        subst hnil
        rw [total_nil, Nat.add_zero, Nat.mod_eq_of_lt h.rd_lt] at hitem'
        exact absurd hitem' hcond.2
    · rw [← hitem']
      refine ⟨hlen, hlen30, ?_⟩
      exact (update_self ..).trans hword
    · rw [← hitem', Chunk.len_packet] at hx
      exact update_of_ne (by omega) _ _
    · rw [hledger, ← hpos]
      have hnew : ledger (l ++ .pad e.words.length :: r) = ⟨(l ++ r).filterMap Chunk.pending?, none⟩ := by
        simp [ledger, filterMap_cons, hl, hr]
      rw [hnew]
      exact .freed

theorem putStep_eq {words : List Word} {r : Buffer × Turn}
    (hgo : putStep cfg s words r = some (s', os)) : IsPacket cfg words ∧ s' = r.1 ∧ os = putObs cfg s words r.2 := by
  unfold putStep at hgo
  split at hgo
  · rename_i hws
    cases hgo
    refine ⟨hws, rfl, ?_⟩
    cases r.2 <;> rfl
  · cases hgo

theorem step_follows (hsize : cfg.size ≤ 2 ^ 30) (h : Inv cfg s cs) {ev : Event} (hok : StepOk cfg s ev)
    (hgo : step cfg s ev = some (s', os)) : Follows cfg cs s' os := by
  cases ev with
  | putWord item =>
    obtain ⟨hws, rfl, rfl⟩ := putStep_eq hgo
    rw [mpscPbufPutWord_eq h]
    exact putWords_follows hsize h hws hok.1 hok.2
  | putWordExt item data =>
    obtain ⟨hws, rfl, rfl⟩ := putStep_eq hgo
    exact putWords_follows hsize h hws hok.1 hok.2
  | putData data =>
    obtain ⟨hws, rfl, rfl⟩ := putStep_eq hgo
    exact putWords_follows hsize h hws hok.1 hok.2
  | alloc wlen wait timedOut =>
    by_cases hpos : 1 ≤ wlen
    · exact alloc_follows hsize h hpos hok hgo
    · simp [step, hpos] at hgo
  | fill item k w => exact fill_follows h hgo
  | commit item => exact commit_follows hsize h hgo
  | claim => exact claim_follows hsize h hgo
  | free => exact free_follows hsize h hok hgo

end RtosKernel.Zephyr.MpscPbuf
