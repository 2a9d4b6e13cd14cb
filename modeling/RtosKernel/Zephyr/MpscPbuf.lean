import RtosKernel.Lib.RingRecords

/-! # The packet buffer (`mpsc_pbuf.c`)

Packets of several words are allocated, committed, claimed and freed in a ring, each step with an index of its
own. The first two bits of a packet belong to the buffer; padding has the second and not the first. -/
namespace RtosKernel.Zephyr.MpscPbuf
open Lib.Window

/-- A word of the buffer as `union mpsc_pbuf_generic`: the two bits of the buffer and the other
bits, which are the length of a skip packet. -/
structure Word where
  valid : Bool
  busy : Bool
  len : BitVec 30
  deriving DecidableEq, Inhabited

/-- The word without the bits that belong to the buffer. -/
def Word.data (w : Word) : Word := ⟨false, false, w.len⟩

/-- `m` reads like `m'` in the first `k` words, apart from the bits of the buffer. -/
def SameWords (k : Nat) (m m' : Nat → Word) : Prop :=
  ∀ i < k, if i = 0 then (m i).data = (m' i).data else m i = m' i

/-- The configuration. `get_wlen` is given by the user; it reads the packet. -/
structure Config where
  size : Nat
  two_le : 2 ≤ size
  size_lt : size < 2 ^ 32
  overwrite : Bool
  getWlen : (Nat → Word) → Nat
  getWlen_reads : ∀ m m', 1 ≤ getWlen m → SameWords (getWlen m) m m' → getWlen m' = getWlen m

/-- The buffer, and what its users hold: the packets under construction, each with its length, and
the packet that the consumer has claimed. -/
structure Buffer where
  buf : Nat → Word
  tmpWrIdx : Nat
  wrIdx : Nat
  tmpRdIdx : Nat
  rdIdx : Nat
  opens : List (Nat × Nat)
  held : Option Nat

/-- `mpsc_pbuf_init`. The words are not written. -/
def mpscPbufInit (buf : Nat → Word) : Buffer := ⟨buf, 0, 0, 0, 0, [], none⟩

variable (cfg : Config) (s : Buffer)

/-- What the function `get_wlen` is given: a pointer into the buffer. -/
def Buffer.item (s : Buffer) (idx : Nat) : Nat → Word := fun k => s.buf (idx + k)

def freeSpace : Nat × Bool :=
  if s.rdIdx > s.tmpWrIdx then (s.rdIdx - s.tmpWrIdx - 1, false)
  else if s.rdIdx = 0 then (cfg.size - s.tmpWrIdx - 1, false)
  else (cfg.size - s.tmpWrIdx, true)

def available : Nat × Bool :=
  if s.tmpRdIdx ≤ s.wrIdx then (s.wrIdx - s.tmpRdIdx, false) else (cfg.size - s.tmpRdIdx, true)

def isInvalid (item : Word) : Bool := !item.valid && !item.busy

/-- `is_power_of_two` of the size. -/
def Config.isPow2 (cfg : Config) : Bool := cfg.size &&& (cfg.size - 1) = 0

def idxInc (idx val : Nat) : Nat :=
  let i := (idx + val) % 2 ^ 32
  if cfg.isPow2 then i &&& (cfg.size - 1) else if i ≥ cfg.size then i - cfg.size else i

def getSkip (item : Word) : Nat := if item.busy && !item.valid then item.len.toNat else 0

def skipWord (wlen : Nat) : Word := ⟨false, true, BitVec.ofNat 30 wlen⟩

def addSkipItem (wlen : Nat) : Buffer :=
  { s with
    buf := Function.update s.buf s.tmpWrIdx (skipWord wlen)
    tmpWrIdx := idxInc cfg s.tmpWrIdx wlen
    wrIdx := idxInc cfg s.wrIdx wlen }

/-- What `drop_item_locked` returns: the item, if one was dropped, and whether it is a user packet. -/
structure Dropped where
  item : Nat
  userPacket : Bool
  deriving DecidableEq

/-- The end of `drop_item_locked`: the read indices move on. -/
def dropWords (rdWlen : Nat) : Buffer :=
  { s with rdIdx := idxInc cfg s.rdIdx rdWlen, tmpRdIdx := idxInc cfg s.rdIdx rdWlen }

def dropItemLocked (freeWlen : Nat) : Buffer × Option Dropped :=
  let item := s.rdIdx
  let skipWlen := getSkip (s.buf item)
  if skipWlen ≠ 0 then (dropWords cfg s skipWlen, some ⟨item, false⟩)
  else if cfg.overwrite then
    let rdWlen := cfg.getWlen (s.item item)
    if (s.buf item).busy then
      -- the item is being processed and cannot be overwritten
      let s := addSkipItem cfg s (freeWlen + 1)
      let s := { s with wrIdx := idxInc cfg s.wrIdx rdWlen, tmpWrIdx := idxInc cfg s.tmpWrIdx rdWlen }
      let item := idxInc cfg s.rdIdx rdWlen
      let skipWlen := getSkip (s.buf item)
      if skipWlen ≠ 0 then (dropWords cfg s (rdWlen + skipWlen), some ⟨item, false⟩)
      else (dropWords cfg s (rdWlen + cfg.getWlen (s.item item)), some ⟨item, true⟩)
    else (dropWords cfg s rdWlen, some ⟨item, true⟩)
  else (s, none)

/-- How one round of the loop of a call ends. -/
inductive Turn
  /-- the packet is stored, or allocated, at this index -/
  | accepted (item : Nat)
  /-- once more, after a packet was dropped or not -/
  | again (dropped : Option Dropped)
  | rejected
  deriving DecidableEq

/-- There is no room: drop a packet or give up. -/
def dropTurn (freeWlen : Nat) : Buffer × Turn :=
  match dropItemLocked cfg s freeWlen with
  | (s, some d) => (s, .again (some d))
  | (s, none) => (s, .rejected)

/-- The words of a packet are stored and committed at once. -/
def storeWords (words : List Word) : Buffer :=
  { s with
    buf := memcpy s.buf s.tmpWrIdx words
    tmpWrIdx := idxInc cfg s.tmpWrIdx words.length
    wrIdx := idxInc cfg s.wrIdx words.length }

/-- One round of `mpsc_pbuf_put_word`. -/
def mpscPbufPutWord (item : Word) : Buffer × Turn :=
  let freeWlen := (freeSpace cfg s).1
  if freeWlen ≠ 0 then (storeWords cfg s [item], .accepted s.tmpWrIdx) else dropTurn cfg s freeWlen

/-- One round of a call that stores several words. -/
def putWords (words : List Word) : Buffer × Turn :=
  let (freeWlen, wrap) := freeSpace cfg s
  if freeWlen ≥ words.length then (storeWords cfg s words, .accepted s.tmpWrIdx)
  else if wrap then (addSkipItem cfg s freeWlen, .again none)
  else dropTurn cfg s freeWlen

/-- One round of `mpsc_pbuf_put_word_ext`; the pointer takes the words `data`. -/
def mpscPbufPutWordExt (item : Word) (data : List Word) : Buffer × Turn := putWords cfg s (item :: data)

/-- One round of `mpsc_pbuf_put_data`. -/
def mpscPbufPutData (data : List Word) : Buffer × Turn := putWords cfg s data

/-- One round of `mpsc_pbuf_alloc`. With `wait` a thread takes the semaphore and tries again, unless the time is
over. -/
def mpscPbufAlloc (wlen : Nat) (wait timedOut : Bool) : Buffer × Turn :=
  if wlen > cfg.size - 1 then (s, .rejected)
  else
    let (freeWlen, wrap) := freeSpace cfg s
    if freeWlen ≥ wlen then
      ({ s with
        buf := Function.update s.buf s.tmpWrIdx (s.buf s.tmpWrIdx).data
        tmpWrIdx := idxInc cfg s.tmpWrIdx wlen
        opens := s.opens ++ [(s.tmpWrIdx, wlen)] }, .accepted s.tmpWrIdx)
    else if wrap then (addSkipItem cfg s freeWlen, .again none)
    else if wait then (s, if timedOut then .rejected else .again none)
    else dropTurn cfg s freeWlen

def mpscPbufCommit (item : Nat) : Buffer :=
  { s with
    buf := Function.update s.buf item { s.buf item with valid := true }
    wrIdx := idxInc cfg s.wrIdx (cfg.getWlen (s.item item))
    opens := s.opens.filter fun o => o.1 ≠ item }

/-- How one round of `mpsc_pbuf_claim` ends. -/
inductive ClaimTurn
  | claimed (item : Nat)
  | again
  | null
  deriving DecidableEq

/-- One round of `mpsc_pbuf_claim`. -/
def mpscPbufClaim : Buffer × ClaimTurn :=
  let item := s.tmpRdIdx
  if (available cfg s).1 = 0 ∨ isInvalid (s.buf item) then (s, .null)
  else
    let skip := getSkip (s.buf item)
    if skip ≠ 0 ∨ (s.buf item).valid = false then
      let inc := if skip ≠ 0 then skip else cfg.getWlen (s.item item)
      ({ s with tmpRdIdx := idxInc cfg s.tmpRdIdx inc, rdIdx := idxInc cfg s.rdIdx inc }, .again)
    else
      let s := { s with buf := Function.update s.buf item { s.buf item with busy := true } }
      ({ s with tmpRdIdx := idxInc cfg s.tmpRdIdx (cfg.getWlen (s.item item)), held := some item }, .claimed item)

def mpscPbufFree (item : Nat) : Buffer :=
  let wlen := cfg.getWlen (s.item item)
  let w := { s.buf item with valid := false }
  if cfg.overwrite = false ∨ item = s.rdIdx then
    { s with
      buf := Function.update s.buf item { w with busy := false }
      rdIdx := idxInc cfg s.rdIdx wlen
      held := none }
  else
    { s with
      buf := Function.update s.buf item { w with len := BitVec.ofNat 30 wlen }
      held := none }

/-! ## Runs -/

/-- What can happen, one section with the lock held at a time. -/
inductive Event
  | putWord (item : Word)
  | putWordExt (item : Word) (data : List Word)
  | putData (data : List Word)
  | alloc (wlen : Nat) (wait timedOut : Bool)
  /-- a producer writes a word of a packet that it has allocated -/
  | fill (item k : Nat) (w : Word)
  | commit (item : Nat)
  | claim
  | free
  deriving DecidableEq

/-- What is seen of it. Packets are given without the bits of the buffer. -/
inductive Obs
  | stored (item : Nat) (words : List Word)
  /-- with what is found in the allocated words -/
  | allocated (item : Nat) (words : List Word)
  | filled (item k : Nat) (w : Word)
  | committed (item : Nat)
  | dropped (item : Nat) (words : List Word)
  | claimed (item : Nat) (words : List Word)
  /-- `mpsc_pbuf_claim` returns null -/
  | null
  | freed (item : Nat)
  deriving DecidableEq

/-- The words of a packet without the bits of the buffer. -/
def payload : List Word → List Word
  | [] => []
  | w :: ws => w.data :: ws

def Buffer.words (s : Buffer) (item wlen : Nat) : List Word := payload ((List.range wlen).map (s.item item))

/-- The words of a packet, as `get_wlen` is given them before they are in the buffer. -/
def packetItem (words : List Word) : Nat → Word := fun k => words.getD k default

/-- What is put is a packet: the valid bit is set, and `get_wlen` is its length. -/
def IsPacket (words : List Word) : Prop :=
  words ≠ [] ∧ (packetItem words 0).valid = true ∧ (packetItem words 0).busy = false ∧
    cfg.getWlen (packetItem words) = words.length
  deriving Decidable

/-- What is seen of a dropped packet. `s` is the buffer before. -/
def Turn.obs (cfg : Config) (s : Buffer) : Turn → List Obs
  | .again (some ⟨item, true⟩) => [.dropped item (s.words item (cfg.getWlen (s.item item)))]
  | _ => []

/-- A round of a call that puts the packet `words`. -/
def putStep (words : List Word) (r : Buffer × Turn) : Option (Buffer × List Obs) :=
  if IsPacket cfg words then
    some (r.1, match r.2 with
      | .accepted item => [.stored item (payload words)]
      | t => t.obs cfg s)
  else none

/-- One step, none where it cannot happen: a producer sets the length of a packet before the commit and leaves
the bits of the buffer alone; the consumer holds at most one packet. -/
def step : Event → Option (Buffer × List Obs)
  | .putWord item => putStep cfg s [item] (mpscPbufPutWord cfg s item)
  | .putWordExt item data => putStep cfg s (item :: data) (mpscPbufPutWordExt cfg s item data)
  | .putData data => putStep cfg s data (mpscPbufPutData cfg s data)
  | .alloc wlen wait timedOut =>
    if 1 ≤ wlen then
      let r := mpscPbufAlloc cfg s wlen wait timedOut
      some (r.1, match r.2 with
        | .accepted item => [.allocated item (s.words item wlen)]
        | t => t.obs cfg s)
    else none
  | .fill item k w =>
    if ∃ o ∈ s.opens, o.1 = item ∧ k < o.2 then
      let w' := if k = 0 then { w with valid := (s.buf item).valid, busy := (s.buf item).busy } else w
      some ({ s with buf := Function.update s.buf (item + k) w' }, [.filled item k w])
    else none
  | .commit item =>
    if (item, cfg.getWlen (s.item item)) ∈ s.opens then some (mpscPbufCommit cfg s item, [.committed item])
    else none
  | .claim =>
    if s.held = none then
      let r := mpscPbufClaim cfg s
      some (r.1, match r.2 with
        | .claimed item => [.claimed item (r.1.words item (cfg.getWlen (r.1.item item)))]
        | .null => [.null]
        | .again => [])
    else none
  | .free => s.held.map fun item => (mpscPbufFree cfg s item, [.freed item])

def run (s : Buffer) : List Event → Option (Buffer × List Obs)
  | [] => some (s, [])
  | ev :: evs => (step cfg s ev).bind fun r => (run r.1 evs).map fun q => (q.1, r.2 ++ q.2)

end RtosKernel.Zephyr.MpscPbuf
