import RtosKernel.Zephyr.RingBuffer

/-! # The ring buffer is a bounded FIFO with claims

One producer and one consumer take turns, also in the middle of `ring_buf_put`, `ring_buf_get` and
`ring_buf_peek`. -/
namespace RtosKernel.Zephyr.RingBuffer
open Lib.Word Lib.Window Lib.RingRecords List

variable {size : Nat} {data : List UInt8} {s : System} {e : Event} {producer : Producer}

/-! ## Producer and consumer -/

inductive Producer
  /-- the regions that were claimed since the last finish -/
  | idle (claims : List Region)
  /-- in `ring_buf_put`, before a claim: `total` bytes were copied -/
  | putting (data : List UInt8) (total : Nat)
  /-- in `ring_buf_put`, before a copy -/
  | copying (data : List UInt8) (total : Nat) (dst : Region)
  /-- in `ring_buf_put`, behind the loop -/
  | ending (data : List UInt8) (total : Nat)

/-- `ring_buf_get`, `ring_buf_get` without a place for the data, `ring_buf_peek`. -/
inductive Mode
  | get
  | skip
  | peek
  deriving DecidableEq

inductive Consumer
  | idle (claims : List Region)
  | getting (mode : Mode) (size total : Nat) (data : List UInt8)
  | copying (mode : Mode) (size total : Nat) (data : List UInt8) (src : Region)
  | ending (mode : Mode) (total : Nat) (data : List UInt8)

structure System where
  buf : RingBuf
  producer : Producer
  consumer : Consumer

inductive Event
  | putClaim (size : Nat)
  /-- the producer writes a byte of what it has claimed -/
  | putWrite (i : Nat) (b : UInt8)
  | putFinish (size : Nat)
  | put (data : List UInt8)
  /-- a call of `ring_buf_put` goes on -/
  | putTurn
  | getClaim (size : Nat)
  | getFinish (size : Nat)
  | get (mode : Mode) (size : Nat)
  /-- a call of `ring_buf_get` or `ring_buf_peek` goes on -/
  | getTurn

/-- What the producer and the consumer see. -/
inductive Obs
  | accepted (bytes : List UInt8)
  | delivered (bytes : List UInt8)
  | skipped (size : Nat)
  | peeked (bytes : List UInt8)
  /-- `-EINVAL` -/
  | refused
  | assertFailed
  deriving DecidableEq

def Region.has (r : Region) (i : Nat) : Bool := r.off ≤ i && i < r.off + r.len

/-- The producer; none where it may not do this. -/
def putStep (buf : RingBuf) : Producer → Event → Option (RingBuf × Producer × List Obs)
  | .idle rs, .putClaim size =>
    let r := ringBufPutClaim buf size
    some (r.1, .idle (rs ++ [r.2]), [])
  | .idle rs, .putWrite i b =>
    if rs.any (·.has i) then some ({ buf with buffer := memcpy buf.buffer i [b] }, .idle rs, []) else none
  | .idle rs, .putFinish size =>
    match ringBufPutFinish buf size with
    | none => some (buf, .idle rs, [.refused])
    | some buf' => some (buf', .idle [], [.accepted ((rs.flatMap (bytesAt buf)).take size)])
  | .idle [], .put data => some (buf, .putting data 0, [])
  | .putting data total, .putTurn =>
    let r := ringBufPutClaim buf (data.length - total)
    some (r.1, .copying data total r.2, [])
  | .copying data total dst, .putTurn =>
    let buf := copyTo buf dst (data.drop total)
    let size := data.length - total - dst.len
    some (buf, if size ≠ 0 ∧ dst.len ≠ 0 then .putting data (total + dst.len) else .ending data (total + dst.len), [])
  | .ending data total, .putTurn =>
    match ringBufPutFinish buf total with
    | none => some (buf, .idle [], [.assertFailed])
    | some buf' => some (buf', .idle [], [.accepted (data.take total)])
  | _, _ => none

def Mode.result : Mode → Nat → List UInt8 → Obs
  | .get, _, data => .delivered data
  | .skip, total, _ => .skipped total
  | .peek, _, data => .peeked data

def getStep (buf : RingBuf) : Consumer → Event → Option (RingBuf × Consumer × List Obs)
  | .idle rs, .getClaim size =>
    let r := ringBufGetClaim buf size
    some (r.1, .idle (rs ++ [r.2]), [])
  | .idle rs, .getFinish size =>
    match ringBufGetFinish buf size with
    | none => some (buf, .idle rs, [.refused])
    | some buf' => some (buf', .idle [], [.delivered ((rs.flatMap (bytesAt buf)).take size)])
  | .idle [], .get mode size =>
    some (buf, .getting mode (if mode = .peek then min size (ringBufSizeGet buf) else size) 0 [], [])
  | .getting mode size total data, .getTurn =>
    let r := ringBufGetClaim buf size
    some (r.1, .copying mode size total data r.2, [])
  | .copying mode size total data src, .getTurn =>
    let data := if mode = .skip then data else data ++ bytesAt buf src
    let size := size - src.len
    some (buf, if size ≠ 0 ∧ src.len ≠ 0 then .getting mode size (total + src.len) data
      else .ending mode (total + src.len) data, [])
  | .ending mode total data, .getTurn =>
    match ringBufGetFinish buf (if mode = .peek then 0 else total) with
    | none => some (buf, .idle [], [.assertFailed])
    | some buf' => some (buf', .idle [], [mode.result total data])
  | _, _ => none

def step (s : System) (e : Event) : Option (System × List Obs) :=
  match putStep s.buf s.producer e with
  | some (buf, producer, os) => some (⟨buf, producer, s.consumer⟩, os)
  | none => (getStep s.buf s.consumer e).map fun r => (⟨r.1, s.producer, r.2.1⟩, r.2.2)

def run (s : System) : List Event → Option (System × List Obs)
  | [] => some (s, [])
  | e :: es => (step s e).bind fun r => (run r.1 es).map fun r' => (r'.1, r.2 ++ r'.2)

/-- A FIFO of `n` bytes that holds `q`. -/
def fifoStep (n : Nat) (q : List UInt8) : Obs → Option (List UInt8)
  | .accepted bytes => if q.length + bytes.length ≤ n then some (q ++ bytes) else none
  | .delivered bytes => if bytes <+: q then some (q.drop bytes.length) else none
  | .skipped size => if size ≤ q.length then some (q.drop size) else none
  | .peeked bytes => if bytes <+: q then some q else none
  | .refused => some q
  | .assertFailed => none

def fifoRun (n : Nat) (q : List UInt8) : List Obs → Option (List UInt8)
  | [] => some q
  | o :: os => (fifoStep n q o).bind fun q => fifoRun n q os

theorem fifoRun_append {n : Nat} {q : List UInt8} (os os' : List Obs) :
    fifoRun n q (os ++ os') = (fifoRun n q os).bind fun q => fifoRun n q os' := by
  induction os generalizing q with
  | nil => rfl
  | cons o os ih =>
    simp only [cons_append, fifoRun, Option.bind_assoc]
    congr 1
    funext q
    exact ih

/-- Regions one behind the other, from a position on. -/
def Follow (n : Nat) : Nat → List Region → Prop
  | _, [] => True
  | pos, r :: rs => r.off = pos % n ∧ r.off + r.len ≤ n ∧ Follow n (pos + r.len) rs

def claimed (rs : List Region) : Nat := (rs.map Region.len).sum

variable {n value g cg p cp pos : Nat} {buf buf' : RingBuf} {rs : List Region} {r : Region} {q : List UInt8}

theorem claimed_snoc : claimed (rs ++ [r]) = claimed rs + r.len := by
  simp [claimed]

theorem Follow.snoc (h : Follow n pos rs) (hoff : r.off = (pos + claimed rs) % n) (hlen : r.off + r.len ≤ n) :
    Follow n pos (rs ++ [r]) := by
  induction rs generalizing pos with
  | nil => exact ⟨hoff, hlen, trivial⟩
  | cons x rs ih =>
    refine ⟨h.1, h.2.1, ih h.2.2 ?_⟩
    rw [hoff]
    simp [claimed, Nat.add_assoc]

theorem bytesAt_eq (hoff : r.off = pos % n) (hlen : r.off + r.len ≤ n) :
    bytesAt buf r = window buf.buffer n pos r.len := by
  rw [← window_mod, ← hoff, window_linear hlen]
  rfl

theorem Follow.bytes (h : Follow n pos rs) : rs.flatMap (bytesAt buf) = window buf.buffer n pos (claimed rs) := by
  induction rs generalizing pos with
  | nil => rfl
  | cons x rs ih =>
    have hsum : claimed (x :: rs) = x.len + claimed rs := by simp [claimed]
    rw [flatMap_cons, hsum, window_add, ih h.2.2, bytesAt_eq h.1 h.2.1]

theorem Follow.cells (h : Follow n pos rs) (hr : r ∈ rs) :
    ∃ o, r.off = (pos + o) % n ∧ r.off + r.len ≤ n ∧ o + r.len ≤ claimed rs := by
  induction rs generalizing pos with
  | nil => cases hr
  | cons x rs ih =>
    have hsum : claimed (x :: rs) = x.len + claimed rs := by simp [claimed]
    rcases mem_cons.mp hr with rfl | hr
    · exact ⟨0, h.1, h.2.1, by omega⟩
    · obtain ⟨o, hoff, hlen, ho⟩ := ih h.2.2 hr
      exact ⟨x.len + o, by rw [hoff, Nat.add_assoc], hlen, by omega⟩

/-! ## The invariant

Since the reset `g` bytes were got and `p` were put; the consumer has claimed `cg`
bytes behind `g`, the producer `cp` bytes behind `p`. -/

structure Inv (n value g cg p cp : Nat) (buf : RingBuf) : Prop where
  pos : 0 < n
  small : n < 2 ^ 31
  size : buf.size = n
  put : Tracks n value buf.put p cp
  get : Tracks n value buf.get g cg
  order : g + cg ≤ p
  room : p + cp ≤ g + n

def unread (buf : RingBuf) : List UInt8 :=
  window buf.buffer buf.size (sub32 buf.get.tail buf.get.base) (sub32 buf.put.tail buf.get.tail)

section
variable (h : Inv n value g cg p cp buf)
include h

theorem Inv.cp_le : cp ≤ n := by
  have := h.order
  have := h.room
  omega

theorem Inv.cg_le : cg ≤ n := by
  have := h.order
  have := h.room
  omega

theorem Inv.getOffset_eq : sub32 buf.get.tail buf.get.base = g % n := by
  obtain ⟨hlt, hle⟩ := mod_le_bound h.pos g
  have := h.small
  rw [h.get.tail, h.get.base, sub32_offset _ _ _ (by omega) (by omega)]
  omega

theorem Inv.unread_eq : unread buf = window buf.buffer n g (p - g) := by
  have := h.small
  have := h.order
  have := h.room
  rw [unread, h.getOffset_eq, h.size, window_mod, h.put.tail, h.get.tail, sub32_offset _ _ _ (by omega) (by omega)]

theorem Inv.spaceGet_eq : ringBufSpaceGet buf = n - (p - g + cp) := by
  have := h.small
  have := h.order
  have := h.room
  rw [ringBufSpaceGet, h.size, h.put.head, h.get.tail, Nat.add_assoc, sub32_offset _ _ _ (by omega) (by omega),
    sub32_of_le (by omega) (by omega)]
  omega

theorem Inv.sizeGet_eq : ringBufSizeGet buf = p - g - cg := by
  have := h.small
  have := h.order
  have := h.room
  rw [ringBufSizeGet, h.put.tail, h.get.head, Nat.add_assoc, sub32_offset _ _ _ (by omega) (by omega)]
  omega

theorem Inv.putClaim (size : Nat) :
    ∃ i r, ringBufPutClaim buf size = ({ buf with put := i }, r) ∧ r.off = (p + cp) % n ∧ r.off + r.len ≤ n ∧
      r.len ≤ size ∧ Inv n value g cg p (cp + r.len) { buf with put := i } := by
  obtain ⟨hr, htracks⟩ : (claim buf.put n (ringBufSpaceGet buf) size).2 = _ ∧ _ := h.put.claim h.pos h.small h.cp_le
  have hspace := h.spaceGet_eq
  have hlt : (p + cp) % n < n := Nat.mod_lt _ h.pos
  have := h.room
  rw [← h.size] at hr htracks
  refine ⟨_, _, rfl, ?_, ?_, ?_, h.pos, h.small, h.size, ?_, h.get, h.order, ?_⟩
  · rw [hr, h.size]
  · rw [hr, h.size]
    dsimp only
    omega
  · rw [hr]
    dsimp only
    omega
  · rw [← h.size]
    exact htracks
  · rw [hr, hspace]
    dsimp only
    omega

theorem Inv.putClaim_len (size : Nat) :
    (ringBufPutClaim buf size).2.len = min (min size (n - (p - g + cp))) (n - (p + cp) % n) := by
  obtain ⟨hr, _⟩ : (claim buf.put n (ringBufSpaceGet buf) size).2 = _ ∧ _ := h.put.claim h.pos h.small h.cp_le
  rw [ringBufPutClaim, h.size, hr, h.spaceGet_eq]

theorem Inv.getClaim (size : Nat) :
    ∃ i r, ringBufGetClaim buf size = ({ buf with get := i }, r) ∧ r.off = (g + cg) % n ∧ r.off + r.len ≤ n ∧
      r.len ≤ size ∧ Inv n value g (cg + r.len) p cp { buf with get := i } := by
  obtain ⟨hr, htracks⟩ : (claim buf.get n (ringBufSizeGet buf) size).2 = _ ∧ _ := h.get.claim h.pos h.small h.cg_le
  have havailable := h.sizeGet_eq
  have hlt : (g + cg) % n < n := Nat.mod_lt _ h.pos
  have := h.order
  rw [← h.size] at hr htracks
  refine ⟨_, _, rfl, ?_, ?_, ?_, h.pos, h.small, h.size, h.put, ?_, ?_, h.room⟩
  · rw [hr, h.size]
  · rw [hr, h.size]
    dsimp only
    omega
  · rw [hr]
    dsimp only
    omega
  · rw [← h.size]
    exact htracks
  · rw [hr, havailable]
    dsimp only
    omega

theorem Inv.getClaim_len (size : Nat) :
    (ringBufGetClaim buf size).2.len = min (min size (p - g - cg)) (n - (g + cg) % n) := by
  obtain ⟨hr, _⟩ : (claim buf.get n (ringBufSizeGet buf) size).2 = _ ∧ _ := h.get.claim h.pos h.small h.cg_le
  rw [ringBufGetClaim, h.size, hr, h.sizeGet_eq]

theorem Inv.putFinish_none (hover : cp < size) : ringBufPutFinish buf size = none := by
  rw [ringBufPutFinish, h.size, h.put.finish_none h.small h.cp_le hover]
  rfl

theorem Inv.putFinish (hle : size ≤ cp) :
    ∃ i, ringBufPutFinish buf size = some { buf with put := i } ∧ Inv n value g cg (p + size) 0 { buf with put := i } := by
  obtain ⟨i, hgo, htracks⟩ := h.put.finish h.pos h.small h.cp_le hle
  have := h.room
  have := h.order
  refine ⟨i, ?_, h.pos, h.small, h.size, htracks, h.get, by omega, by omega⟩
  rw [ringBufPutFinish, h.size, hgo]
  rfl

theorem Inv.getFinish_none (hover : cg < size) : ringBufGetFinish buf size = none := by
  rw [ringBufGetFinish, h.size, h.get.finish_none h.small h.cg_le hover]
  rfl

theorem Inv.getFinish (hle : size ≤ cg) :
    ∃ i, ringBufGetFinish buf size = some { buf with get := i } ∧ Inv n value (g + size) 0 p cp { buf with get := i } := by
  obtain ⟨i, hgo, htracks⟩ := h.get.finish h.pos h.small h.cg_le hle
  have := h.room
  have := h.order
  refine ⟨i, ?_, h.pos, h.small, h.size, h.put, htracks, by omega, by omega⟩
  rw [ringBufGetFinish, h.size, hgo]
  rfl

theorem Inv.apart {o j : Nat} (hoff : r.off = (p + o) % n) (hlen : r.off + r.len ≤ n)
    (ho : o + r.len ≤ cp) (hj : j < p + o - g) : (g + j) % n < r.off ∨ r.off + r.len ≤ (g + j) % n := by
  have := h.room
  have hlt : g % n < n := Nat.mod_lt _ h.pos
  have hreach : (g % n + (p + o - g)) % n = r.off := by
    rw [Nat.mod_add_mod, hoff]
    congr 1
    omega
  have hout := outside_of_offset (o := p + o - g) (l := r.len) (j := j) hlt (by omega) (by rw [hreach]; exact hlen) (by omega)
    (.inl hj)
  rwa [hreach, Nat.mod_add_mod] at hout

theorem Inv.window_kept {o len : Nat} (hoff : r.off = (p + o) % n)
    (hlen : r.off + r.len ≤ n) (ho : o + r.len ≤ cp) (hdata : data.length ≤ r.len) (hwin : len ≤ p + o - g) :
    window (memcpy buf.buffer r.off data) n g len = window buf.buffer n g len := by
  refine window_congr fun j hj => memcpy_outside ?_
  rcases h.apart hoff hlen ho (j := j) (by omega) with hlow | hhigh
  · exact .inl hlow
  · exact .inr (by omega)

theorem Inv.withBuffer (b : Nat → UInt8) : Inv n value g cg p cp { buf with buffer := b } :=
  ⟨h.pos, h.small, h.size, h.put, h.get, h.order, h.room⟩

end

theorem window_copied {b : Nat → UInt8} (hn : 0 < n) (hoff : r.off = pos % n) (hlen : r.off + r.len ≤ n)
    (hdata : data.length = r.len) : window (memcpy b r.off data) n pos r.len = data := by
  have hlt : r.off < n := by
    rw [hoff]
    exact Nat.mod_lt _ hn
  rw [← window_mod, ← hoff, ← store_of_le (n := n) (by omega), ← hdata]
  exact window_store hlt (by omega)

theorem Inv.copied {total : Nat} (h : Inv n value g cg p (total + r.len) buf)
    (hoff : r.off = (p + total) % n) (hlen : r.off + r.len ≤ n) (hdata : data.length = r.len) :
    window (memcpy buf.buffer r.off data) n g (p - g) = window buf.buffer n g (p - g) ∧
      window (memcpy buf.buffer r.off data) n p (total + r.len) = window buf.buffer n p total ++ data := by
  have horder := h.order
  have hkept := h.window_kept hoff hlen (Nat.le_refl _) hdata.le (Nat.le_refl (p + total - g))
  rw [show p + total - g = p - g + total by omega, window_add, window_add, show g + (p - g) = p by omega] at hkept
  obtain ⟨hread, hbefore⟩ := append_inj hkept (by simp)
  exact ⟨hread, by rw [window_add, hbefore, window_copied h.pos hoff hlen hdata]⟩

/-! ## One step -/

def PutOk (n : Nat) (buf : RingBuf) (p cp : Nat) : Producer → Prop
  | .idle rs => Follow n p rs ∧ claimed rs = cp
  | .putting data total => total = cp ∧ total ≤ data.length ∧ window buf.buffer n p total = data.take total
  | .copying data total dst => total + dst.len = cp ∧ total + dst.len ≤ data.length ∧ dst.off = (p + total) % n ∧
      dst.off + dst.len ≤ n ∧ window buf.buffer n p total = data.take total
  | .ending data total => total = cp ∧ total ≤ data.length ∧ window buf.buffer n p total = data.take total

def Read (mode : Mode) (q : List UInt8) (total : Nat) (data : List UInt8) : Prop :=
  data = if mode = .skip then [] else q.take total

/-- What the consumer knows, when `q` is to be read. -/
def GetOk (n g cg : Nat) (q : List UInt8) : Consumer → Prop
  | .idle rs => Follow n g rs ∧ claimed rs = cg
  | .getting mode _ total data => total = cg ∧ Read mode q total data
  | .copying mode _ total data src => total + src.len = cg ∧ src.off = (g + total) % n ∧ src.off + src.len ≤ n ∧
      Read mode q total data
  | .ending mode total data => total = cg ∧ Read mode q total data

structure Good (n value : Nat) (s : System) (q : List UInt8) : Prop where
  ok : ∃ g cg p cp, Inv n value g cg p cp s.buf ∧ q = window s.buf.buffer n g (p - g) ∧ PutOk n s.buf p cp s.producer ∧
    GetOk n g cg q s.consumer

theorem GetOk.more {c : Consumer} (h : GetOk n g cg q c) (hcg : cg ≤ q.length) (b : List UInt8) : GetOk n g cg (q ++ b) c := by
  have hread : ∀ {mode total data}, total ≤ cg → Read mode q total data → Read mode (q ++ b) total data := by
    intro mode total data hle hr
    rw [Read, take_append_of_le_length (by omega)]
    exact hr
  cases c with
  | idle rs => exact h
  | getting mode size total data => exact ⟨h.1, hread (by rw [h.1]) h.2⟩
  | copying mode size total data src => exact ⟨h.1, h.2.1, h.2.2.1, hread (by rw [← h.1]; omega) h.2.2.2⟩
  | ending mode total data => exact ⟨h.1, hread (by rw [h.1]) h.2⟩

theorem accepted_step (h : Inv n value g cg p cp buf) (hsize : size ≤ cp) {i : Indices} {bytes : List UInt8}
    (hbytes : bytes = window buf.buffer n p size) (hi : Inv n value g cg (p + size) 0 { buf with put := i }) {c : Consumer}
    (hget : GetOk n g cg (window buf.buffer n g (p - g)) c) :
    ∃ q, fifoRun n (window buf.buffer n g (p - g)) [.accepted bytes] = some q ∧
      Good n value ⟨{ buf with put := i }, .idle [], c⟩ q := by
  have := h.room
  have := h.order
  have hwin : window buf.buffer n g (p + size - g) = window buf.buffer n g (p - g) ++ bytes := by
    rw [show p + size - g = p - g + size by omega, window_add, hbytes, show g + (p - g) = p by omega]
  refine ⟨window buf.buffer n g (p - g) ++ bytes, ?_, g, cg, p + size, 0, hi, hwin.symm, ⟨trivial, rfl⟩,
    hget.more (by rw [length_window]; omega) bytes⟩
  rw [fifoRun, fifoStep, if_pos (by rw [hbytes, length_window, length_window]; omega)]
  rfl

theorem putStep_good {r : RingBuf × Producer × List Obs} (hs : Good n value s q)
    (hgo : putStep s.buf s.producer e = some r) :
    ∃ q', fifoRun n q r.2.2 = some q' ∧ Good n value ⟨r.1, r.2.1, s.consumer⟩ q' := by
  obtain ⟨g, cg, p, cp, hi, rfl, hput, hget⟩ := hs.ok
  obtain ⟨buf, producer, consumer⟩ := s
  cases producer with
  | idle rs =>
    obtain ⟨hrs, hcp⟩ := hput
    cases e with
    | putClaim size =>
      obtain ⟨i, r, hclaim, hoff, hlen, _, hi'⟩ := hi.putClaim size
      rw [putStep, hclaim] at hgo
      cases hgo
      refine ⟨_, rfl, g, cg, p, cp + r.len, hi', rfl, ⟨?_, ?_⟩, hget⟩
      · exact hrs.snoc (by rw [hoff, hcp]) hlen
      · rw [claimed_snoc, hcp]
    | putWrite j b =>
      rw [putStep] at hgo
      split at hgo <;> cases hgo
      rename_i hhas
      obtain ⟨r, hr, hhas⟩ := List.any_eq_true.mp hhas
      obtain ⟨o, hoff, hlen, ho⟩ := hrs.cells hr
      simp only [Region.has, Bool.and_eq_true, decide_eq_true_eq] at hhas
      have hcell : j = (p + (o + (j - r.off))) % n := by
        rw [← Nat.add_assoc, ← Nat.mod_add_mod, ← hoff, Nat.mod_eq_of_lt (by omega)]
        omega
      have hdata : [b].length ≤ (⟨j, 1⟩ : Region).len := Nat.le_refl 1
      have hkept := hi.window_kept hcell (by dsimp only; omega) (by dsimp only; omega) hdata
        (show p - g ≤ p + (o + (j - r.off)) - g by omega)
      exact ⟨_, rfl, g, cg, p, cp, hi.withBuffer _, hkept.symm, ⟨hrs, hcp⟩, hget⟩
    | putFinish size =>
      by_cases hsize : size ≤ cp
      · obtain ⟨i, hfinish, hi'⟩ := hi.putFinish hsize
        rw [putStep, hfinish] at hgo
        cases hgo
        refine accepted_step hi hsize ?_ hi' hget
        rw [hrs.bytes, hcp, window_take, Nat.min_eq_left hsize]
      · rw [putStep, hi.putFinish_none (by omega)] at hgo
        cases hgo
        exact ⟨_, rfl, g, cg, p, cp, hi, rfl, ⟨hrs, hcp⟩, hget⟩
    | put data =>
      cases rs with
      | nil =>
        cases hgo
        obtain rfl : 0 = cp := hcp
        exact ⟨_, rfl, g, cg, p, 0, hi, rfl, ⟨rfl, Nat.zero_le _, rfl⟩, hget⟩
      | cons r rs => cases hgo
    | _ => cases hgo
  | putting data total =>
    obtain ⟨rfl, hle, hwin⟩ := hput
    cases e with
    | putTurn =>
      obtain ⟨i, r, hclaim, hoff, hlen, hsize, hi'⟩ := hi.putClaim (data.length - total)
      rw [putStep, hclaim] at hgo
      cases hgo
      exact ⟨_, rfl, g, cg, p, total + r.len, hi', rfl, ⟨rfl, by dsimp only; omega, hoff, hlen, hwin⟩, hget⟩
    | _ => cases hgo
  | copying data total dst =>
    obtain ⟨rfl, hle, hoff, hlen, hwin⟩ := hput
    cases e with
    | putTurn =>
      cases hgo
      have hcopy : (copyTo buf dst (data.drop total)).buffer = memcpy buf.buffer dst.off ((data.drop total).take dst.len) := rfl
      have hdata : ((data.drop total).take dst.len).length = dst.len := by
        rw [length_take, length_drop]
        omega
      obtain ⟨hread, hcopied⟩ := hi.copied hoff hlen hdata
      have hall : window (copyTo buf dst (data.drop total)).buffer n p (total + dst.len) = data.take (total + dst.len) := by
        rw [hcopy, hcopied, hwin, take_add]
      refine ⟨_, rfl, g, cg, p, total + dst.len, hi.withBuffer _, hread.symm, ?_, hget⟩
      split
      · exact ⟨rfl, hle, hall⟩
      · exact ⟨rfl, hle, hall⟩
    | _ => cases hgo
  | ending data total =>
    obtain ⟨rfl, hle, hwin⟩ := hput
    cases e with
    | putTurn =>
      obtain ⟨i, hfinish, hi'⟩ := hi.putFinish (Nat.le_refl total)
      rw [putStep, hfinish] at hgo
      cases hgo
      exact accepted_step hi (Nat.le_refl total) hwin.symm hi' hget
    | _ => cases hgo

theorem Inv.got (h : Inv n value g cg p cp buf) (hsize : size ≤ cg) {i : Indices}
    (hi : Inv n value (g + size) 0 p cp { buf with get := i }) (hput : PutOk n buf p cp producer) :
    Good n value ⟨{ buf with get := i }, producer, .idle []⟩ ((window buf.buffer n g (p - g)).drop size) := by
  have := h.order
  refine ⟨g + size, 0, p, cp, hi, ?_, hput, trivial, rfl⟩
  rw [window_drop (by omega), Nat.sub_sub]

theorem Read.append {mode : Mode} {total : Nat} (hr : Read mode q total data) (k : Nat) :
    Read mode q (total + k) (if mode = .skip then data else data ++ (q.drop total).take k) := by
  unfold Read at hr ⊢
  by_cases hmode : mode = .skip
  · rw [if_pos hmode] at hr ⊢
    rw [if_pos hmode]
    exact hr
  · rw [if_neg hmode] at hr ⊢
    rw [if_neg hmode, hr, take_add]

theorem getStep_good {r : RingBuf × Consumer × List Obs} (hs : Good n value s q)
    (hgo : getStep s.buf s.consumer e = some r) :
    ∃ q', fifoRun n q r.2.2 = some q' ∧ Good n value ⟨r.1, s.producer, r.2.1⟩ q' := by
  obtain ⟨g, cg, p, cp, hi, rfl, hput, hget⟩ := hs.ok
  obtain ⟨buf, producer, consumer⟩ := s
  dsimp only at hi hput hget hgo ⊢
  have horder := hi.order
  have hlen : (window buf.buffer n g (p - g)).length = p - g := length_window ..
  cases consumer with
  | idle rs =>
    obtain ⟨hrs, hcg⟩ := hget
    cases e with
    | getClaim size =>
      obtain ⟨i, r, hclaim, hoff, hlen, _, hi'⟩ := hi.getClaim size
      rw [getStep, hclaim] at hgo
      cases hgo
      refine ⟨_, rfl, g, cg + r.len, p, cp, hi', rfl, hput, ?_, ?_⟩
      · exact hrs.snoc (by rw [hoff, hcg]) hlen
      · rw [claimed_snoc, hcg]
    | getFinish size =>
      by_cases hsize : size ≤ cg
      · obtain ⟨i, hfinish, hi'⟩ := hi.getFinish hsize
        rw [getStep, hfinish] at hgo
        cases hgo
        refine ⟨_, ?_, hi.got hsize hi' hput⟩
        have hbytes : (rs.flatMap (bytesAt buf)).take size = (window buf.buffer n g (p - g)).take size := by
          rw [hrs.bytes, window_take, window_take, hcg, Nat.min_eq_left hsize, Nat.min_eq_left (by omega)]
        rw [hbytes, fifoRun, fifoStep, if_pos (List.take_prefix ..), length_take, Nat.min_eq_left (by omega)]
        rfl
      · rw [getStep, hi.getFinish_none (by omega)] at hgo
        cases hgo
        exact ⟨_, rfl, g, cg, p, cp, hi, rfl, hput, hrs, hcg⟩
    | get mode size =>
      cases rs with
      | nil =>
        cases hgo
        obtain rfl : 0 = cg := hcg
        refine ⟨_, rfl, g, 0, p, cp, hi, rfl, hput, rfl, ?_⟩
        rw [Read, take_zero, ite_self]
      | cons r rs => cases hgo
    | _ => cases hgo
  | getting mode size total data =>
    obtain ⟨rfl, hread⟩ := hget
    cases e with
    | getTurn =>
      obtain ⟨i, r, hclaim, hoff, hlen, _, hi'⟩ := hi.getClaim size
      rw [getStep, hclaim] at hgo
      cases hgo
      exact ⟨_, rfl, g, total + r.len, p, cp, hi', rfl, hput, rfl, hoff, hlen, hread⟩
    | _ => cases hgo
  | copying mode size total data src =>
    obtain ⟨rfl, hoff, hin, hread⟩ := hget
    cases e with
    | getTurn =>
      cases hgo
      have hbytes : bytesAt buf src = ((window buf.buffer n g (p - g)).drop total).take src.len := by
        rw [bytesAt_eq hoff hin, window_drop (by omega), window_take, Nat.min_eq_left (by omega)]
      refine ⟨_, rfl, g, total + src.len, p, cp, hi, rfl, hput, ?_⟩
      rw [hbytes]
      have hread' := hread.append src.len
      split
      · exact ⟨rfl, hread'⟩
      · exact ⟨rfl, hread'⟩
    | _ => cases hgo
  | ending mode total data =>
    obtain ⟨rfl, hread⟩ := hget
    cases e with
    | getTurn =>
      have hsize : (if mode = .peek then 0 else total) ≤ total := by split <;> omega
      obtain ⟨i, hfinish, hi'⟩ := hi.getFinish hsize
      rw [getStep, hfinish] at hgo
      cases hgo
      refine ⟨_, ?_, hi.got hsize hi' hput⟩
      cases mode with
      | get =>
        obtain rfl : data = _ := hread
        simp only [Mode.result, fifoRun, fifoStep, if_neg (show ¬ Mode.get = .peek by decide),
          if_neg (show ¬ Mode.get = .skip by decide), if_pos (List.take_prefix ..), length_take, hlen,
          Nat.min_eq_left (show total ≤ p - g by omega)]
        rfl
      | skip =>
        simp only [Mode.result, fifoRun, fifoStep, if_neg (show ¬ Mode.skip = .peek by decide), hlen,
          if_pos (show total ≤ p - g by omega)]
        rfl
      | peek =>
        obtain rfl : data = _ := hread
        simp only [Mode.result, fifoRun, fifoStep, if_neg (show ¬ Mode.peek = .skip by decide),
          if_pos (List.take_prefix ..)]
        rfl
    | _ => cases hgo

theorem step_good {r : System × List Obs} (hs : Good n value s q) (hgo : step s e = some r) :
    ∃ q', fifoRun n q r.2 = some q' ∧ Good n value r.1 q' := by
  unfold step at hgo
  cases hput : putStep s.buf s.producer e with
  | some x =>
    rw [hput] at hgo
    cases hgo
    exact putStep_good hs hput
  | none =>
    rw [hput] at hgo
    obtain ⟨x, hget, rfl⟩ := Option.map_eq_some_iff.mp hgo
    exact getStep_good hs hget

theorem run_good {es : List Event} {r : System × List Obs} (hs : Good n value s q) (hgo : run s es = some r) :
    ∃ q', fifoRun n q r.2 = some q' ∧ Good n value r.1 q' := by
  induction es generalizing s q r with
  | nil =>
    cases hgo
    exact ⟨q, rfl, hs⟩
  | cons e es ih =>
    obtain ⟨r1, hstep, hgo⟩ := Option.bind_eq_some_iff.mp hgo
    obtain ⟨r2, hrun, rfl⟩ := Option.map_eq_some_iff.mp hgo
    obtain ⟨q1, hq1, hs1⟩ := step_good hs hstep
    obtain ⟨q2, hq2, hs2⟩ := ih hs1 hrun
    refine ⟨q2, ?_, hs2⟩
    rw [fifoRun_append, hq1]
    exact hq2

/-! ## Every run -/

/-- The regions the producer may write to. -/
def Producer.regions : Producer → List Region
  | .idle rs => rs
  | .copying _ _ dst => [dst]
  | _ => []

/-- How much the producer has claimed since its last finish. -/
def Producer.claimed : Producer → Nat
  | .idle rs => RingBuffer.claimed rs
  | .putting _ total => total
  | .copying _ total dst => total + dst.len
  | .ending _ total => total

/-- The regions the consumer may read. -/
def Consumer.regions : Consumer → List Region
  | .idle rs => rs
  | .copying _ _ _ _ src => [src]
  | _ => []

/-- How much the consumer has claimed since its last finish. -/
def Consumer.claimed : Consumer → Nat
  | .idle rs => RingBuffer.claimed rs
  | .getting _ _ total _ => total
  | .copying _ _ total _ src => total + src.len
  | .ending _ total _ => total

/-- What holds at any time, when the FIFO holds `q`. -/
structure TwoPhase (n : Nat) (s : System) (q : List UInt8) : Prop where
  queue : unread s.buf = q
  /-- what the producer has claimed is in the buffer and does not meet a byte to read -/
  putRegions : ∀ r ∈ s.producer.regions, r.off + r.len ≤ n ∧
    ∀ j < q.length, r.has ((sub32 s.buf.get.tail s.buf.get.base + j) % n) = false
  getRegions : ∀ r ∈ s.consumer.regions, r.off + r.len ≤ n
  /-- the consumer sees the first bytes to read -/
  getBytes : ∀ rs, s.consumer = .idle rs → rs.flatMap (bytesAt s.buf) = q.take (RingBuffer.claimed rs)
  /-- a finish is refused if it is too long, otherwise the surplus is free again -/
  putFinish : ∀ size, if s.producer.claimed < size then ringBufPutFinish s.buf size = none
    else ∃ buf, ringBufPutFinish s.buf size = some buf ∧ ringBufSpaceGet buf + (q.length + size) = n
  getFinish : ∀ size, if s.consumer.claimed < size then ringBufGetFinish s.buf size = none
    else ∃ buf, ringBufGetFinish s.buf size = some buf ∧ ringBufSizeGet buf + size = q.length
  balanced : s.producer.claimed = 0 → s.consumer.claimed = 0 → ringBufSpaceGet s.buf + ringBufSizeGet s.buf = n

theorem PutOk.claimed_eq (h : PutOk n buf p cp producer) : producer.claimed = cp := by
  cases producer with
  | idle rs => exact h.2
  | putting data total => exact h.1
  | copying data total dst => exact h.1
  | ending data total => exact h.1

theorem GetOk.claimed_eq {consumer : Consumer} (h : GetOk n g cg q consumer) : consumer.claimed = cg := by
  cases consumer with
  | idle rs => exact h.2
  | getting mode size total data => exact h.1
  | copying mode size total data src => exact h.1
  | ending mode total data => exact h.1

theorem PutOk.region (h : PutOk n buf p cp producer) (hr : r ∈ producer.regions) :
    ∃ o, r.off = (p + o) % n ∧ r.off + r.len ≤ n ∧ o + r.len ≤ cp := by
  cases producer with
  | idle rs =>
    obtain ⟨o, hoff, hlen, ho⟩ := h.1.cells hr
    exact ⟨o, hoff, hlen, by rw [← h.2]; exact ho⟩
  | copying data total dst =>
    obtain rfl := mem_singleton.mp hr
    exact ⟨total, h.2.2.1, h.2.2.2.1, h.1.le⟩
  | putting data total => cases hr
  | ending data total => cases hr

theorem GetOk.region {consumer : Consumer} (h : GetOk n g cg q consumer) (hr : r ∈ consumer.regions) :
    r.off + r.len ≤ n := by
  cases consumer with
  | idle rs => exact (h.1.cells hr).choose_spec.2.1
  | copying mode size total data src =>
    obtain rfl := mem_singleton.mp hr
    exact h.2.2.1
  | getting mode size total data => cases hr
  | ending mode total data => cases hr

theorem Good.twoPhase (hs : Good n value s q) : TwoPhase n s q := by
  obtain ⟨g, cg, p, cp, hi, hq, hput, hget⟩ := hs.ok
  have hlen : q.length = p - g := by rw [hq, length_window]
  have horder := hi.order
  have hroom := hi.room
  refine ⟨by rw [hi.unread_eq, hq], fun r hr => ?_, fun r hr => hget.region hr, fun rs hrs => ?_, fun size => ?_,
    fun size => ?_, fun hp hc => ?_⟩
  · obtain ⟨o, hoff, hin, ho⟩ := hput.region hr
    refine ⟨hin, fun j hj => ?_⟩
    rw [hi.getOffset_eq, Nat.mod_add_mod]
    have hapart := hi.apart hoff hin ho (j := j) (by omega)
    simp only [Region.has, Bool.and_eq_false_iff, decide_eq_false_iff_not]
    omega
  · rw [hrs] at hget
    rw [hget.1.bytes, hq, window_take, hget.2, Nat.min_eq_left (by omega)]
  · rw [hput.claimed_eq]
    split
    · exact hi.putFinish_none (by omega)
    · obtain ⟨i, hgo, hi'⟩ := hi.putFinish (show size ≤ cp by omega)
      exact ⟨_, hgo, by rw [hi'.spaceGet_eq, hlen]; omega⟩
  · rw [hget.claimed_eq]
    split
    · exact hi.getFinish_none (by omega)
    · obtain ⟨i, hgo, hi'⟩ := hi.getFinish (show size ≤ cg by omega)
      exact ⟨_, hgo, by rw [hi'.sizeGet_eq, hlen]; omega⟩
  · rw [hput.claimed_eq] at hp
    rw [hget.claimed_eq] at hc
    rw [hi.spaceGet_eq, hi.sizeGet_eq]
    omega

/-- A ring buffer that nobody uses yet. -/
def fresh (buf : RingBuf) (value : Nat) : System := ⟨ringBufInternalReset buf value, .idle [], .idle []⟩

theorem fresh_good (hn : 0 < buf.size) (hsmall : buf.size < 2 ^ 31) (value : Nat) :
    Good buf.size value (fresh buf value) [] :=
  ⟨0, 0, 0, 0, ⟨hn, hsmall, rfl, .start .., .start .., Nat.le_refl 0, Nat.zero_le _⟩, rfl, ⟨trivial, rfl⟩, trivial, rfl⟩

/-- **The ring buffer is a bounded FIFO** for every size below 2^31, first value of the indices and order of the
steps, and the regions that were claimed are in the buffer and apart from the bytes to read. -/
theorem ring_buffer_two_phase {value : Nat} (hn : 0 < buf.size) (hsmall : buf.size < 2 ^ 31) {es : List Event} {s : System}
    {os : List Obs} (hrun : run (fresh buf value) es = some (s, os)) :
    ∃ q, fifoRun buf.size [] os = some q ∧ TwoPhase buf.size s q := by
  obtain ⟨q, hq, hs⟩ := run_good (fresh_good hn hsmall value) hrun
  exact ⟨q, hq, hs.twoPhase⟩

/-- The indices wrap, a claim goes past the base and is not finished as a whole. -/
def wrapAround : List Event :=
  [.put [1, 2, 3], .putTurn, .putTurn, .getClaim 2, .putTurn, .putClaim 4, .putFinish 5, .getClaim 1, .getFinish 2,
    .putClaim 2, .putWrite 3 9, .putFinish 1, .getFinish 1, .get .get 4, .getTurn, .getTurn, .getTurn, .getTurn, .getTurn]

theorem ring_buffer_two_phase_five : ∃ s os q,
    run (fresh ⟨fun _ => 0, ⟨0, 0, 0⟩, ⟨0, 0, 0⟩, 5⟩ (2 ^ 32 - 2)) wrapAround = some (s, os) ∧
      fifoRun 5 [] os = some q ∧ TwoPhase 5 s q := by
  have hsome : (run (fresh ⟨fun _ => 0, ⟨0, 0, 0⟩, ⟨0, 0, 0⟩, 5⟩ (2 ^ 32 - 2)) wrapAround).isSome := by decide +kernel
  obtain ⟨⟨s, os⟩, hrun⟩ := Option.isSome_iff_exists.mp hsome
  obtain ⟨q, hq, hs⟩ := ring_buffer_two_phase (by decide) (by decide) hrun
  exact ⟨s, os, q, hrun, hq, hs⟩

end RtosKernel.Zephyr.RingBuffer
