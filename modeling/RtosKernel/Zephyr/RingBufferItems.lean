import RtosKernel.Lib.LittleEndian
import RtosKernel.Zephyr.RingBufferFifo

/-! # Items in a ring buffer

An item is a header of four bytes and up to 255 words. In a buffer of whole words
the header is always claimed in one piece, and the items come out as they went in. -/
namespace RtosKernel.Zephyr.RingBuffer
open Lib Lib.Word Lib.Window List

structure Data32 where
  words : List UInt32
  short : words.length < 256

structure Item where
  type : UInt16
  value : UInt8
  data32 : Data32

/-- `struct ring_element`, as it is in memory. -/
def ringElement (type : UInt16) (length : Nat) (value : UInt8) : List UInt8 :=
  LittleEndian.bytes 4 (type.toNat + 2 ^ 16 * length + 2 ^ 24 * value.toNat)

def elementType (header : List UInt8) : UInt16 := UInt16.ofNat (LittleEndian.value header % 2 ^ 16)

def elementLength (header : List UInt8) : Nat := LittleEndian.value header / 2 ^ 16 % 2 ^ 8

def elementValue (header : List UInt8) : UInt8 := UInt8.ofNat (LittleEndian.value header / 2 ^ 24)

def wordBytes (words : List UInt32) : List UInt8 := words.flatMap fun w => LittleEndian.bytes 4 w.toNat

/-- The words the caller finds in memory. -/
def wordsOf : List UInt8 → List UInt32
  | b :: b1 :: b2 :: b3 :: bs => UInt32.ofNat (LittleEndian.value [b, b1, b2, b3]) :: wordsOf bs
  | _ => []

/-- The loop of `ring_buf_item_put`: the rest of the data, and how much was put. -/
def itemPutLoop : Nat → RingBuf → List UInt8 → Nat → Option (RingBuf × List UInt8 × Nat)
  | 0, _, _, _ => none
  | fuel + 1, buf, data, totalSize =>
    let r := ringBufPutClaim buf data.length
    let buf := copyTo r.1 r.2 data
    let rest := data.drop r.2.len
    if rest.length ≠ 0 ∧ r.2.len ≠ 0 then itemPutLoop fuel buf rest (totalSize + r.2.len)
    else some (buf, rest, totalSize + r.2.len)

/-- `__ASSERT_NO_MSG`. -/
def assert (p : Prop) [Decidable p] : Option Unit := if p then some () else none

inductive PutResult
  | ok
  /-- `-EMSGSIZE` -/
  | msgSize
  deriving DecidableEq

/-- `ring_buf_item_put`; none if an assertion fails. -/
def ringBufItemPut (buf : RingBuf) (type : UInt16) (value : UInt8) (data32 : Data32) : Option (RingBuf × PutResult) :=
  let size := data32.words.length * 4
  if size + 4 > ringBufSpaceGet buf then some (buf, .msgSize)
  else do
    let r := ringBufPutClaim buf 4
    assert (r.2.len = 4)
    let buf := copyTo r.1 r.2 (ringElement type data32.words.length value)
    let l ← itemPutLoop (size + 1) buf (wordBytes data32.words) 4
    assert (l.2.1.length = 0)
    let buf ← ringBufPutFinish l.1 l.2.2
    some (buf, .ok)

/-- The loop of `ring_buf_item_get`: the data, and how much was got. `keep` tells whether there is
a place for the data. -/
def itemGetLoop (keep : Bool) : Nat → RingBuf → Nat → List UInt8 → Nat → Option (RingBuf × List UInt8 × Nat)
  | 0, _, _, _, _ => none
  | fuel + 1, buf, size, data, totalSize =>
    let r := ringBufGetClaim buf size
    let data := if keep then data ++ bytesAt r.1 r.2 else data
    let size := size - r.2.len
    if size ≠ 0 ∧ r.2.len ≠ 0 then itemGetLoop keep fuel r.1 size data (totalSize + r.2.len)
    else some (r.1, data, totalSize + r.2.len)

inductive GetResult
  /-- `-EAGAIN` -/
  | again
  /-- `-EMSGSIZE`, with the size that is needed -/
  | msgSize (size32 : Nat)
  | ok (type : UInt16) (value : UInt8) (size32 : Nat) (data32 : Option (List UInt32))
  deriving DecidableEq

/-- `ring_buf_item_get`; the place for the data has `size32` words, if there is one. -/
def ringBufItemGet (buf : RingBuf) (place : Option Nat) : Option (RingBuf × GetResult) :=
  if ringBufIsEmpty buf then some (buf, .again)
  else do
    let r := ringBufGetClaim buf 4
    assert (r.2.len = 4)
    let header := bytesAt r.1 r.2
    if place.any (elementLength header > ·) then
      let buf := (ringBufGetFinish r.1 0).getD r.1
      some (buf, .msgSize (elementLength header))
    else do
      let l ← itemGetLoop place.isSome (elementLength header * 4 + 1) r.1 (elementLength header * 4) [] 4
      let buf ← ringBufGetFinish l.1 l.2.2
      some (buf, .ok (elementType header) (elementValue header) (elementLength header) (place.map fun _ => wordsOf l.2.1))

inductive ItemCall
  | put (item : Item)
  | get (place : Option Nat)

inductive ItemResult
  | put (r : PutResult)
  | get (r : GetResult)
  deriving DecidableEq

def itemCall (buf : RingBuf) : ItemCall → Option (RingBuf × ItemResult)
  | .put item => (ringBufItemPut buf item.type item.value item.data32).map fun r => (r.1, .put r.2)
  | .get place => (ringBufItemGet buf place).map fun r => (r.1, .get r.2)

def itemCalls (buf : RingBuf) : List ItemCall → Option (RingBuf × List ItemResult)
  | [] => some (buf, [])
  | call :: calls => (itemCall buf call).bind fun r => (itemCalls r.1 calls).map fun r' => (r'.1, r.2 :: r'.2)

/-! ## A queue of items -/

def Item.space (item : Item) : Nat := 4 + 4 * item.data32.words.length

def itemsSpace (q : List Item) : Nat := (q.map Item.space).sum

/-- A queue of items with room for `n` bytes. -/
def queueCall (n : Nat) (q : List Item) : ItemCall → List Item × ItemResult
  | .put item => if item.space > n - itemsSpace q then (q, .put .msgSize) else (q ++ [item], .put .ok)
  | .get place =>
    match q with
    | [] => ([], .get .again)
    | item :: rest =>
      if place.any (item.data32.words.length > ·) then (item :: rest, .get (.msgSize item.data32.words.length))
      else (rest, .get (.ok item.type item.value item.data32.words.length (place.map fun _ => item.data32.words)))

def queueCalls (n : Nat) (q : List Item) : List ItemCall → List Item × List ItemResult
  | [] => (q, [])
  | call :: calls =>
    let r := queueCall n q call
    let r' := queueCalls n r.1 calls
    (r'.1, r.2 :: r'.2)

/-! ## Items as bytes -/

def Item.encode (item : Item) : List UInt8 :=
  ringElement item.type item.data32.words.length item.value ++ wordBytes item.data32.words

variable {type : UInt16}

theorem value_ringElement {length : Nat} {value : UInt8} (hlen : length < 256) :
    LittleEndian.value (ringElement type length value) = type.toNat + 2 ^ 16 * length + 2 ^ 24 * value.toNat := by
  have htype := type.toNat_lt
  have hvalue := value.toNat_lt
  exact LittleEndian.value_bytes_of_lt (by omega)

theorem elementType_ringElement {length : Nat} {value : UInt8} (hlen : length < 256) :
    elementType (ringElement type length value) = type := by
  have htype := type.toNat_lt
  rw [elementType, value_ringElement hlen, show (type.toNat + 2 ^ 16 * length + 2 ^ 24 * value.toNat) % 2 ^ 16 = type.toNat by omega]
  exact UInt16.ofNat_toNat

theorem elementLength_ringElement {length : Nat} {value : UInt8} (hlen : length < 256) :
    elementLength (ringElement type length value) = length := by
  have htype := type.toNat_lt
  rw [elementLength, value_ringElement hlen]
  omega

theorem elementValue_ringElement {length : Nat} {value : UInt8} (hlen : length < 256) :
    elementValue (ringElement type length value) = value := by
  have htype := type.toNat_lt
  rw [elementValue, value_ringElement hlen, show (type.toNat + 2 ^ 16 * length + 2 ^ 24 * value.toNat) / 2 ^ 24 = value.toNat by omega]
  exact UInt8.ofNat_toNat

@[simp] theorem length_ringElement (type : UInt16) (length : Nat) (value : UInt8) : (ringElement type length value).length = 4 :=
  LittleEndian.length_bytes 4 _

@[simp] theorem length_wordBytes (words : List UInt32) : (wordBytes words).length = words.length * 4 := by
  induction words with
  | nil => rfl
  | cons w words ih =>
    rw [wordBytes, flatMap_cons, length_append, LittleEndian.length_bytes, length_cons]
    have : (words.flatMap fun w => LittleEndian.bytes 4 w.toNat).length = words.length * 4 := ih
    omega

theorem wordsOf_wordBytes (words : List UInt32) : wordsOf (wordBytes words) = words := by
  induction words with
  | nil => rfl
  | cons w words ih =>
    have hword : LittleEndian.value (LittleEndian.bytes 4 w.toNat) = w.toNat := LittleEndian.value_bytes_of_lt w.toNat_lt
    show UInt32.ofNat (LittleEndian.value (LittleEndian.bytes 4 w.toNat)) :: wordsOf (wordBytes words) = _
    rw [hword, ih, UInt32.ofNat_toNat]

theorem Item.length_encode (item : Item) : item.encode.length = item.space := by
  rw [Item.encode, length_append, length_ringElement, length_wordBytes, Item.space]
  omega

theorem length_encodeAll (q : List Item) : (q.flatMap Item.encode).length = itemsSpace q := by
  rw [length_flatMap, itemsSpace]
  simp only [Item.length_encode]

/-! ## The loops -/

variable {n value g cg p cp : Nat} {buf : RingBuf}

theorem itemPutLoop_spec {fuel : Nat} (data : List UInt8) (totalSize : Nat) (h : Inv n value g 0 p cp buf)
    (hroom : data.length ≤ n - (p - g + cp)) (hfuel : data.length < fuel) :
    ∃ buf', itemPutLoop fuel buf data totalSize = some (buf', [], totalSize + data.length) ∧
      Inv n value g 0 p (cp + data.length) buf' ∧ window buf'.buffer n g (p - g) = window buf.buffer n g (p - g) ∧
      window buf'.buffer n p (cp + data.length) = window buf.buffer n p cp ++ data := by
  induction fuel generalizing cp buf data totalSize with
  | zero => omega
  | succ fuel ih =>
    obtain ⟨i, r, hclaim, hoff, hin, hsize, hi⟩ := h.putClaim data.length
    have hlen := h.putClaim_len data.length
    rw [hclaim] at hlen
    dsimp only at hlen
    have hlt : (p + cp) % n < n := Nat.mod_lt _ h.pos
    have htake : (data.take r.len).length = r.len := by
      rw [length_take]
      omega
    obtain ⟨hread, hcopied⟩ := hi.copied hoff hin htake
    have hdrop : (data.drop r.len).length = data.length - r.len := length_drop
    rw [itemPutLoop, hclaim]
    by_cases hmore : (data.drop r.len).length ≠ 0 ∧ r.len ≠ 0
    · rw [if_pos hmore]
      have hi' := hi.withBuffer (memcpy buf.buffer r.off (data.take r.len))
      obtain ⟨buf', hgo, hinv, hread', hall⟩ := ih (data.drop r.len) (totalSize + r.len) hi' (by omega) (by omega)
      refine ⟨buf', ?_, ?_, hread'.trans hread, ?_⟩
      · rw [copyTo, hgo, hdrop]
        congr 3
        omega
      · rw [hdrop] at hinv
        rw [show cp + data.length = cp + r.len + (data.length - r.len) by omega]
        exact hinv
      · rw [hdrop] at hall
        rw [show cp + data.length = cp + r.len + (data.length - r.len) by omega, hall, hcopied, append_assoc,
          take_append_drop]
    · rw [if_neg hmore]
      obtain hlast : r.len = data.length := by omega
      rw [hlast] at hi hread hcopied ⊢
      rw [take_length] at hread hcopied
      refine ⟨_, ?_, hi.withBuffer (memcpy buf.buffer r.off data), hread, hcopied⟩
      rw [copyTo, hlast, take_length, drop_length]

theorem itemGetLoop_spec {fuel : Nat} (keep : Bool) (size : Nat) (data : List UInt8) (totalSize : Nat) (h : Inv n value g cg p 0 buf)
    (hroom : size ≤ p - g - cg) (hfuel : size < fuel) :
    ∃ i, itemGetLoop keep fuel buf size data totalSize =
        some ({ buf with get := i }, if keep then data ++ window buf.buffer n (g + cg) size else data, totalSize + size) ∧
      Inv n value g (cg + size) p 0 { buf with get := i } := by
  induction fuel generalizing cg buf size data totalSize with
  | zero => omega
  | succ fuel ih =>
    obtain ⟨i, r, hclaim, hoff, hin, hsize, hi⟩ := h.getClaim size
    have hlen := h.getClaim_len size
    rw [hclaim] at hlen
    dsimp only at hlen
    have hlt : (g + cg) % n < n := Nat.mod_lt _ h.pos
    have hbytes : bytesAt { buf with get := i } r = window buf.buffer n (g + cg) r.len := bytesAt_eq hoff hin
    rw [itemGetLoop, hclaim]
    rw [hbytes]
    by_cases hmore : size - r.len ≠ 0 ∧ r.len ≠ 0
    · rw [if_pos hmore]
      obtain ⟨i', hgo, hinv⟩ := ih (size - r.len)
        (if keep then data ++ window buf.buffer n (g + cg) r.len else data) (totalSize + r.len) hi (by omega) (by omega)
      refine ⟨i', ?_, ?_⟩
      · rw [hgo]
        have hsplit : window buf.buffer n (g + cg) size =
            window buf.buffer n (g + cg) r.len ++ window buf.buffer n (g + (cg + r.len)) (size - r.len) := by
          rw [← Nat.add_assoc, ← window_add]
          congr 1
          omega
        rw [hsplit]
        cases keep <;> simp [append_assoc] <;> omega
      · rw [show cg + size = cg + r.len + (size - r.len) by omega]
        exact hinv
    · rw [if_neg hmore]
      obtain hlast : r.len = size := by omega
      rw [hlast] at hi ⊢
      exact ⟨i, rfl, hi⟩

/-! ## One call -/

/-- The buffer holds the items `q`. -/
inductive HoldsItems (n value : Nat) (buf : RingBuf) (q : List Item) : Prop
  | noBytes : n = 0 → q = [] → unread buf = [] → ringBufSpaceGet buf = 0 → ringBufIsEmpty buf = true → HoldsItems n value buf q
  | items (g p : Nat) : Inv n value g 0 p 0 buf → 4 ∣ n → 4 ∣ g → 4 ∣ p →
      window buf.buffer n g (p - g) = q.flatMap Item.encode → HoldsItems n value buf q

variable {q : List Item} {item : Item}

theorem itemsSpace_cons (item : Item) (q : List Item) : itemsSpace (item :: q) = item.space + itemsSpace q := by
  simp [itemsSpace]

theorem assert_of {P : Prop} [Decidable P] (h : P) : assert P = some () := if_pos h

theorem ringBufItemPut_full {v : UInt8} {data32 : Data32}
    (hfull : 4 + 4 * data32.words.length > ringBufSpaceGet buf) :
    ringBufItemPut buf type v data32 = some (buf, .msgSize) := by
  rw [ringBufItemPut, if_pos (by omega)]

theorem ringBufItemPut_fits (h : Inv n value g 0 p 0 buf) (hn : 4 ∣ n) (hg : 4 ∣ g) (hp : 4 ∣ p)
    (hbytes : window buf.buffer n g (p - g) = q.flatMap Item.encode) (hroom : item.space ≤ n - (p - g)) :
    ∃ buf', ringBufItemPut buf item.type item.value item.data32 = some (buf', .ok) ∧
      Inv n value g 0 (p + item.space) 0 buf' ∧
      window buf'.buffer n g (p + item.space - g) = (q ++ [item]).flatMap Item.encode := by
  have horder := h.order
  have hspace : item.space = 4 + (wordBytes item.data32.words).length := by
    rw [Item.space, length_wordBytes, Nat.mul_comm]
  obtain ⟨i, r, hclaim, hoff, hin, _, hi⟩ := h.putClaim 4
  -- a multiple of four bytes is left up to the end of the buffer
  have hlen : r.len = 4 := by
    have hr := h.putClaim_len 4
    rw [hclaim] at hr
    dsimp only at hr
    have hlt : (p + 0) % n < n := Nat.mod_lt _ h.pos
    have hdvd : 4 ∣ n - (p + 0) % n := Nat.dvd_sub hn ((Nat.dvd_mod_iff hn).mpr hp)
    omega
  have hheader : (ringElement item.type item.data32.words.length item.value).length = r.len := by
    rw [length_ringElement, hlen]
  obtain ⟨hread, hcopied⟩ := hi.copied hoff hin hheader
  have hi' := hi.withBuffer (memcpy buf.buffer r.off (ringElement item.type item.data32.words.length item.value))
  rw [hlen] at hi' hcopied
  have hcopy : copyTo { buf with put := i } r (ringElement item.type item.data32.words.length item.value) =
      { buf with put := i, buffer := memcpy buf.buffer r.off (ringElement item.type item.data32.words.length item.value) } := by
    rw [copyTo, take_of_length_le hheader.le]
  obtain ⟨buf1, hloop, hi1, hread1, hall⟩ := itemPutLoop_spec (wordBytes item.data32.words) 4 hi'
    (show _ ≤ _ by omega) (show _ < item.data32.words.length * 4 + 1 by rw [length_wordBytes]; omega)
  obtain ⟨i2, hfinish, hi2⟩ := hi1.putFinish (show 4 + (wordBytes item.data32.words).length ≤ _ by omega)
  refine ⟨_, ?_, by rw [hspace]; exact hi2, ?_⟩
  · rw [ringBufItemPut, h.spaceGet_eq, if_neg (by rw [Item.space] at hroom; omega), hclaim]
    show (assert (r.len = 4)).bind _ = _
    rw [assert_of hlen]
    show (itemPutLoop _ (copyTo { buf with put := i } r _) _ 4).bind _ = _
    rw [hcopy, hloop]
    show (ringBufPutFinish buf1 (4 + (wordBytes item.data32.words).length)).bind _ = _
    rw [hfinish]
    rfl
  · have hnew : window buf1.buffer n p item.space = item.encode := by
      rw [hspace, hall, hcopied, window_zero]
      rfl
    rw [show p + item.space - g = p - g + item.space by omega, window_add, show g + (p - g) = p by omega]
    show window buf1.buffer n g (p - g) ++ window buf1.buffer n p item.space = _
    rw [hnew, hread1, hread, hbytes, flatMap_append, flatMap_singleton]

theorem Inv.isEmpty_iff (h : Inv n value g 0 p cp buf) : ringBufIsEmpty buf = true ↔ p = g := by
  have hsmall := h.small
  have horder := h.order
  have hroom := h.room
  rw [ringBufIsEmpty, decide_eq_true_eq, h.get.head, h.put.tail]
  omega

theorem Inv.unclaim (h : Inv n value g 0 p cp buf) (size : Nat) :
    ringBufGetFinish (ringBufGetClaim buf size).1 0 = some buf := by
  have hlt : g % n < n := Nat.mod_lt _ h.pos
  have htail : add32 buf.get.tail 0 = buf.get.tail := by
    rw [h.get.tail, add32_offset, Nat.add_zero]
  have hhead : buf.get.head = buf.get.tail := by
    rw [h.get.head, h.get.tail, Nat.add_zero]
  have hbase : ¬ sub32 buf.get.tail buf.get.base ≥ buf.size := by
    rw [h.getOffset_eq, h.size]
    omega
  have hfinish : finish (ringBufGetClaim buf size).1.get buf.size 0 =
      some ⟨add32 buf.get.tail 0, add32 buf.get.tail 0,
        if sub32 (add32 buf.get.tail 0) buf.get.base ≥ buf.size then add32 buf.get.base buf.size else buf.get.base⟩ :=
    if_neg (Nat.not_lt_zero _)
  have hsize : (ringBufGetClaim buf size).1.size = buf.size := rfl
  rw [ringBufGetFinish, hsize, hfinish, htail, if_neg hbase]
  obtain ⟨b, put, ⟨head, tail, base⟩, n⟩ := buf
  dsimp only at hhead
  subst hhead
  rfl

section
variable (h : Inv n value g 0 p 0 buf) (hn : 4 ∣ n) (hg : 4 ∣ g) (hbytes : window buf.buffer n g (p - g) = (item :: q).flatMap Item.encode)
include h hn hg hbytes

theorem header_spec
    :
    ∃ i r, ringBufGetClaim buf 4 = ({ buf with get := i }, r) ∧ r.len = 4 ∧
      bytesAt { buf with get := i } r = ringElement item.type item.data32.words.length item.value ∧
      Inv n value g 4 p 0 { buf with get := i } ∧
      window buf.buffer n (g + 4) (item.data32.words.length * 4) = wordBytes item.data32.words ∧
      window buf.buffer n (g + item.space) (p - (g + item.space)) = q.flatMap Item.encode ∧ item.space ≤ p - g := by
  have hlong : item.space + itemsSpace q = p - g := by
    have := congrArg List.length hbytes
    rw [length_window, length_encodeAll, itemsSpace_cons] at this
    omega
  have hspace : item.space = 4 + item.data32.words.length * 4 := by
    rw [Item.space, Nat.mul_comm]
  obtain ⟨i, r, hclaim, hoff, hin, _, hi⟩ := h.getClaim 4
  have hlen : r.len = 4 := by
    have hr := h.getClaim_len 4
    rw [hclaim] at hr
    dsimp only at hr
    have hlt : (g + 0) % n < n := Nat.mod_lt _ h.pos
    have hdvd : 4 ∣ n - (g + 0) % n := Nat.dvd_sub hn ((Nat.dvd_mod_iff hn).mpr hg)
    omega
  have hsplit : window buf.buffer n g (p - g) =
      window buf.buffer n g 4 ++ (window buf.buffer n (g + 4) (item.data32.words.length * 4) ++
        window buf.buffer n (g + item.space) (p - (g + item.space))) := by
    rw [show g + item.space = g + 4 + item.data32.words.length * 4 by omega, ← window_add, ← window_add]
    congr 1
    omega
  rw [hsplit, flatMap_cons, Item.encode, append_assoc] at hbytes
  obtain ⟨hheader, hbytes⟩ := append_inj hbytes (by simp)
  obtain ⟨hwords, hrest⟩ := append_inj hbytes (by simp)
  refine ⟨i, r, hclaim, hlen, ?_, ?_, hwords, hrest, by omega⟩
  · rw [bytesAt_eq hoff hin, hlen]
    exact hheader
  · rw [hlen] at hi
    exact hi

theorem ringBufItemGet_small
    {place : Option Nat} (hplace : place.any (item.data32.words.length > ·) = true) :
    ringBufItemGet buf place = some (buf, .msgSize item.data32.words.length) := by
  obtain ⟨i, r, hclaim, hlen, hheader, _, _, _, hle⟩ := header_spec h hn hg hbytes
  have hnonempty : ¬ ringBufIsEmpty buf = true := by
    rw [h.isEmpty_iff]
    rw [Item.space] at hle
    omega
  have hunclaim := h.unclaim 4
  rw [hclaim] at hunclaim
  rw [ringBufItemGet, if_neg hnonempty, hclaim]
  show (assert (r.len = 4)).bind _ = _
  rw [assert_of hlen]
  dsimp only [Option.bind_some]
  rw [hheader, elementLength_ringElement item.data32.short, if_pos hplace, hunclaim]
  rfl

theorem ringBufItemGet_ok
    {place : Option Nat}
    (hplace : ¬ place.any (item.data32.words.length > ·) = true) :
    ∃ i, ringBufItemGet buf place = some ({ buf with get := i },
        .ok item.type item.value item.data32.words.length (place.map fun _ => item.data32.words)) ∧
      Inv n value (g + item.space) 0 p 0 { buf with get := i } ∧
      window buf.buffer n (g + item.space) (p - (g + item.space)) = q.flatMap Item.encode := by
  obtain ⟨i, r, hclaim, hlen, hheader, hi, hwords, hrest, hle⟩ := header_spec h hn hg hbytes
  have hnonempty : ¬ ringBufIsEmpty buf = true := by
    rw [h.isEmpty_iff]
    rw [Item.space] at hle
    omega
  have hspace : item.space = 4 + item.data32.words.length * 4 := by
    rw [Item.space, Nat.mul_comm]
  obtain ⟨i1, hloop, hi1⟩ := itemGetLoop_spec place.isSome (item.data32.words.length * 4) [] 4 hi (by omega)
    (Nat.lt_succ_self _)
  obtain ⟨i2, hfinish, hi2⟩ := hi1.getFinish (Nat.le_refl _)
  refine ⟨i2, ?_, by rw [hspace]; exact hi2, hrest⟩
  rw [ringBufItemGet, if_neg hnonempty, hclaim]
  show (assert (r.len = 4)).bind _ = _
  rw [assert_of hlen]
  dsimp only [Option.bind_some]
  rw [hheader, elementLength_ringElement item.data32.short, elementType_ringElement item.data32.short,
    elementValue_ringElement item.data32.short, if_neg hplace]
  show (itemGetLoop place.isSome _ { buf with get := i } _ [] 4).bind _ = _
  rw [hloop]
  show (ringBufGetFinish { buf with get := i1 } (4 + item.data32.words.length * 4)).bind _ = _
  rw [hfinish]
  cases place with
  | none => rfl
  | some k =>
    show some (_, GetResult.ok _ _ _ (some (wordsOf ([] ++ window buf.buffer n (g + 4) _)))) = _
    rw [hwords, nil_append, wordsOf_wordBytes]
    rfl

end

/-- **A call on a buffer that holds items is a call on the queue.** -/
theorem itemCall_spec (h : HoldsItems n value buf q) (call : ItemCall) :
    ∃ buf', itemCall buf call = some (buf', (queueCall n q call).2) ∧ HoldsItems n value buf' (queueCall n q call).1 := by
  cases h with
  | noBytes hn hq hunread hspace hempty =>
    subst hn hq
    refine ⟨buf, ?_, ?_⟩
    · cases call with
      | put item =>
        have hfull : item.space > 0 - itemsSpace [] := by
          rw [Item.space]
          omega
        rw [itemCall, ringBufItemPut_full (by omega), queueCall, if_pos hfull]
        rfl
      | get place =>
        rw [itemCall, ringBufItemGet, if_pos hempty]
        rfl
    · have hsame : (queueCall 0 [] call).1 = [] := by
        cases call with
        | put item => rw [queueCall, if_pos (by rw [Item.space]; omega)]
        | get place => rfl
      rw [hsame]
      exact .noBytes rfl rfl hunread hspace hempty
  | items g p hi hn hg hp hbytes =>
    have horder := hi.order
    have hused : itemsSpace q = p - g := by
      rw [← length_encodeAll, ← hbytes, length_window]
    cases call with
    | put item =>
      rw [itemCall, queueCall]
      by_cases hroom : item.space ≤ n - (p - g)
      · obtain ⟨buf', hgo, hi', hbytes'⟩ := ringBufItemPut_fits hi hn hg hp hbytes hroom
        have hdvd : 4 ∣ item.space := ⟨1 + item.data32.words.length, by rw [Item.space]; omega⟩
        rw [hgo, if_neg (by omega)]
        exact ⟨buf', rfl, .items g (p + item.space) hi' hn hg (Nat.dvd_add hp hdvd) hbytes'⟩
      · have hfull : 4 + 4 * item.data32.words.length > ringBufSpaceGet buf := by
          rw [hi.spaceGet_eq]
          rw [Item.space] at hroom
          omega
        rw [ringBufItemPut_full hfull, if_pos (by omega)]
        exact ⟨buf, rfl, .items g p hi hn hg hp hbytes⟩
    | get place =>
      rw [itemCall]
      cases q with
      | nil =>
        have hempty : p = g := by
          have : itemsSpace [] = 0 := rfl
          omega
        rw [ringBufItemGet, if_pos (hi.isEmpty_iff.mpr hempty)]
        exact ⟨buf, rfl, .items g p hi hn hg hp hbytes⟩
      | cons item rest =>
        rw [queueCall]
        by_cases hplace : place.any (item.data32.words.length > ·) = true
        · rw [ringBufItemGet_small hi hn hg hbytes hplace, if_pos hplace]
          exact ⟨buf, rfl, .items g p hi hn hg hp hbytes⟩
        · obtain ⟨i, hgo, hi', hrest⟩ := ringBufItemGet_ok hi hn hg hbytes hplace
          have hdvd : 4 ∣ item.space := ⟨1 + item.data32.words.length, by rw [Item.space]; omega⟩
          rw [hgo, if_neg hplace]
          exact ⟨_, rfl, .items (g + item.space) p hi' hn (Nat.dvd_add hg hdvd) hp hrest⟩

/-! ## Every sequence of calls -/

/-- What holds between two calls, when the queue holds `q`. -/
structure Serves (n : Nat) (buf : RingBuf) (q : List Item) : Prop where
  bytes : unread buf = q.flatMap Item.encode
  space : ringBufSpaceGet buf + itemsSpace q = n
  /-- a put is refused exactly if the item does not fit, and changes nothing then -/
  full : ∀ item, itemCall buf (.put item) = some (buf, .put .msgSize) ↔ item.space > ringBufSpaceGet buf
  /-- a get is refused if the place is too small, and changes nothing then -/
  small : ∀ item rest size32, q = item :: rest → size32 < item.data32.words.length →
    itemCall buf (.get (some size32)) = some (buf, .get (.msgSize item.data32.words.length))

theorem HoldsItems.serves (h : HoldsItems n value buf q) : Serves n buf q := by
  have hspace : ringBufSpaceGet buf + itemsSpace q = n := by
    cases h with
    | noBytes hn hq hunread hspace hempty =>
      subst hn hq
      rw [hspace]
      rfl
    | items g p hi hn hg hp hbytes =>
      have hroom := hi.room
      rw [hi.spaceGet_eq, ← length_encodeAll, ← hbytes, length_window]
      omega
  refine ⟨?_, hspace, fun item => ?_, fun item rest size32 hq hsize => ?_⟩
  · cases h with
    | noBytes hn hq hunread hspace hempty =>
      subst hq
      exact hunread
    | items g p hi hn hg hp hbytes => rw [hi.unread_eq, hbytes]
  · constructor
    · intro hgo
      obtain ⟨buf', hgo', _⟩ := itemCall_spec h (.put item)
      rw [hgo, queueCall] at hgo'
      by_contra hroom
      rw [if_neg (by omega)] at hgo'
      simp at hgo'
    · intro hfull
      rw [itemCall, ringBufItemPut_full hfull]
      rfl
  · subst hq
    cases h with
    | noBytes hn hq hunread hspace hempty => cases hq
    | items g p hi hn hg hp hbytes =>
      have hplace : (some size32).any (item.data32.words.length > ·) = true := by simpa using hsize
      rw [itemCall, ringBufItemGet_small hi hn hg hbytes hplace]
      rfl

theorem itemCalls_spec (h : HoldsItems n value buf q) (calls : List ItemCall) :
    ∃ buf', itemCalls buf calls = some (buf', (queueCalls n q calls).2) ∧ HoldsItems n value buf' (queueCalls n q calls).1 := by
  induction calls generalizing buf q with
  | nil => exact ⟨buf, rfl, h⟩
  | cons call calls ih =>
    obtain ⟨buf1, hgo, h1⟩ := itemCall_spec h call
    obtain ⟨buf2, hrun, h2⟩ := ih h1
    refine ⟨buf2, ?_, h2⟩
    rw [itemCalls, hgo, Option.bind_some, hrun]
    rfl

/-- **Items come out as they went in.** In a buffer of whole words, whatever its size below 2^31 and the first
value of the indices, no assertion fails, and the results are those of a queue of items. -/
theorem item_ring_round_trip (value : Nat) (hwords : 4 ∣ buf.size) (hsmall : buf.size < 2 ^ 31) (calls : List ItemCall) :
    ∃ buf', itemCalls (ringBufInternalReset buf value) calls = some (buf', (queueCalls buf.size [] calls).2) ∧
      Serves buf.size buf' (queueCalls buf.size [] calls).1 := by
  have hfresh : HoldsItems buf.size value (ringBufInternalReset buf value) [] := by
    rcases Nat.eq_zero_or_pos buf.size with hzero | hpos
    · have hnone : sub32 (value % 2 ^ 32) (value % 2 ^ 32) = 0 := by
        rw [sub32_of_le (Nat.le_refl _) (by omega), Nat.sub_self]
      refine .noBytes hzero rfl ?_ ?_ (decide_eq_true rfl)
      · show window buf.buffer buf.size _ (sub32 (value % 2 ^ 32) (value % 2 ^ 32)) = []
        rw [hnone, window_zero]
      · show sub32 buf.size (sub32 (value % 2 ^ 32) (value % 2 ^ 32)) = 0
        rw [hzero, hnone]
        rfl
    · exact .items 0 0 ⟨hpos, hsmall, rfl, .start .., .start .., Nat.le_refl 0, Nat.zero_le _⟩ hwords (Nat.dvd_zero 4)
        (Nat.dvd_zero 4) rfl
  obtain ⟨buf', hrun, h⟩ := itemCalls_spec hfresh calls
  exact ⟨buf', hrun, h.serves⟩

/-- Three items, one of them read in two steps, around the end of a buffer of five words. -/
def itemsAround : List ItemCall :=
  [.put ⟨7, 1, ⟨[10, 11], by decide⟩⟩, .put ⟨8, 2, ⟨[12], by decide⟩⟩, .put ⟨9, 3, ⟨[], by decide⟩⟩, .get (some 1), .get (some 2),
    .put ⟨9, 3, ⟨[13], by decide⟩⟩, .get none, .get (some 1), .get (some 1)]

theorem item_ring_round_trip_five : ∃ buf', itemCalls (ringBufInternalReset ⟨fun _ => 0, ⟨0, 0, 0⟩, ⟨0, 0, 0⟩, 20⟩ 0) itemsAround =
    some (buf', [.put .ok, .put .ok, .put .msgSize, .get (.msgSize 2), .get (.ok 7 1 2 (some [10, 11])), .put .ok,
      .get (.ok 8 2 1 none), .get (.ok 9 3 1 (some [13])), .get .again]) ∧ Serves 20 buf' [] :=
  item_ring_round_trip 0 (by decide) (by decide) itemsAround

end RtosKernel.Zephyr.RingBuffer
