import RtosKernel.Lib.Atomic
import RtosKernel.Lib.Runs
import RtosKernel.Zephyr.BitArrayRegions

/-! # Memory blocks (`mem_blocks.c`)

A buffer of blocks of one size, and a bit array that tells which of them are taken. The
calls take no lock: they are programs over the operations of the bit array, and each of
these is atomic. -/
namespace RtosKernel.Zephyr.MemBlocks
open Lib.Atomic Lib.Runs Zephyr.BitArrays

def enomem : Int := -12

/-- `sys_mem_blocks_t` without its bit map, and where the buffer is. -/
structure Pool where
  numBlocks : Nat
  blkSzShift : Nat
  buffer : Nat
  /-- The bits of a pointer, of `size_t` and of `ptrdiff_t`. -/
  wordBits : Nat
  wide : 32 ≤ wordBits
  buffer_pos : 0 < buffer
  /-- The calls count the blocks in an `int`. -/
  numBlocks_lt : numBlocks < 2 ^ 31
  fits : buffer + numBlocks * 2 ^ blkSzShift ≤ 2 ^ wordBits
  /-- The difference of two pointers into an object is a `ptrdiff_t`. -/
  object : numBlocks * 2 ^ blkSzShift < 2 ^ (wordBits - 1)

/-- The operations of the bit array that are used. -/
inductive Op where
  | alloc (numBits : Nat)
  | free (numBits offset : Nat)
  | testAndSetRegion (numBits offset : Nat) (toSet : Bool)

abbrev Result : Op → Type
  | .alloc _ => Int × Nat
  | .free .. => Int
  | .testAndSetRegion .. => Int

/-- What a call returns and the pointers it has written for its caller. -/
structure Ret where
  ret : Int
  out : List Nat
  deriving DecidableEq

/-- A call of `sys_bitarray_alloc`. -/
def bitarrayAlloc (numBits : Nat) : Prog Op Result (Int × Nat) := Prog.call (Op.alloc numBits)

/-- A call of `sys_bitarray_free`. -/
def bitarrayFree (numBits offset : Nat) : Prog Op Result Int := Prog.call (Op.free numBits offset)

/-- A call of `sys_bitarray_test_and_set_region`. -/
def bitarrayTestAndSetRegion (numBits offset : Nat) (toSet : Bool) : Prog Op Result Int :=
  Prog.call (Op.testAndSetRegion numBits offset toSet)

section Calls
variable (p : Pool)

/-- A pointer difference, in blocks: `(blk - buffer) >> blk_sz_shift`. -/
def Pool.blocksFrom (ptr : Nat) : Int := Int.bmod ((ptr : Int) - p.buffer) (2 ^ p.wordBits) / 2 ^ p.blkSzShift

/-- Conversion to `size_t`. -/
def Pool.size (x : Int) : Nat := (x % 2 ^ p.wordBits).toNat

/-- Conversion to `int`. -/
def int (x : Int) : Int := Int.bmod x (2 ^ 32)

def allocBlocks (numBlocks : Nat) : Prog Op Result Nat := do
  let r ← bitarrayAlloc numBlocks
  if r.1 ≠ 0 then return 0
  else return (p.buffer + r.2 * 2 ^ p.blkSzShift) % 2 ^ p.wordBits

def freeBlocks (ptr numBlocks : Nat) : Prog Op Result Int :=
  if ptr < p.buffer then return efault
  else
    let offset := p.size (p.blocksFrom ptr)
    if offset ≥ p.numBlocks then return efault
    else bitarrayFree numBlocks offset

def sysMemBlocksAllocContiguous (count : Nat) : Prog Op Result Ret :=
  if count = 0 then return ⟨0, [0]⟩
  else if count > p.numBlocks then return ⟨enomem, []⟩
  else do
    let ptr ← allocBlocks p count
    if ptr = 0 then return ⟨enomem, []⟩ else return ⟨0, [ptr]⟩

/-- The loop of `sys_mem_blocks_free`. -/
def freeEach : List Nat → Int → Prog Op Result Int
  | [], ret => return ret
  | ptr :: inBlocks, ret => do
    let r ← freeBlocks p ptr 1
    freeEach inBlocks (if r ≠ 0 then r else ret)

/-- `sys_mem_blocks_free`; `count` is the length of the list. -/
def sysMemBlocksFree (inBlocks : List Nat) : Prog Op Result Int :=
  if inBlocks.length = 0 then return 0
  else if inBlocks.length > p.numBlocks then return einval
  else freeEach p inBlocks 0

/-- The loop of `sys_mem_blocks_alloc`. -/
def allocEach : Nat → List Nat → Prog Op Result (List Nat)
  | 0, outBlocks => return outBlocks
  | n + 1, outBlocks => do
    let ptr ← allocBlocks p 1
    if ptr = 0 then return outBlocks else allocEach n (outBlocks ++ [ptr])

def sysMemBlocksAlloc (count : Nat) : Prog Op Result Ret :=
  if count = 0 then return ⟨0, []⟩
  else if count > p.numBlocks then return ⟨enomem, []⟩
  else do
    let outBlocks ← allocEach p count []
    if outBlocks.length < count then do
      let _ ← sysMemBlocksFree p outBlocks
      return ⟨enomem, outBlocks⟩
    else return ⟨0, outBlocks⟩

/-- The `offset` of `sys_mem_blocks_get`, which is an `int`. -/
def getOffset (inBlock : Nat) : Int := int (p.blocksFrom inBlock)

def sysMemBlocksGet (inBlock count : Nat) : Prog Op Result Int :=
  if count = 0 then return 0
  else if (p.size (getOffset p inBlock) + count) % 2 ^ p.wordBits > p.numBlocks then return enomem
  else do
    let ret ← bitarrayTestAndSetRegion count (p.size (getOffset p inBlock)) true
    if ret ≠ 0 then return enomem else return ret

def sysMemBlocksFreeContiguous (block count : Nat) : Prog Op Result Int :=
  if count = 0 then return 0
  else if count > p.numBlocks then return einval
  else freeBlocks p block count

/-! ## Threads -/

inductive Call where
  | alloc (count : Nat)
  | allocContiguous (count : Nat)
  | get (inBlock count : Nat)
  | free (inBlocks : List Nat)
  | freeContiguous (block count : Nat)
  deriving DecidableEq

def Call.body : Call → Prog Op Result Ret
  | .alloc count => sysMemBlocksAlloc p count
  | .allocContiguous count => sysMemBlocksAllocContiguous p count
  | .get inBlock count => do return ⟨← sysMemBlocksGet p inBlock count, []⟩
  | .free inBlocks => do return ⟨← sysMemBlocksFree p inBlocks, []⟩
  | .freeContiguous block count => do return ⟨← sysMemBlocksFreeContiguous p block count, []⟩

/-- The number of the block a pointer points to; those from 0 to `numBlocks` exist. -/
def Pool.number (ptr : Nat) : Int := ((ptr : Int) - p.buffer) / 2 ^ p.blkSzShift

def Pool.blocks (ptr count : Nat) : Finset Int := (Finset.range count).image fun i : Nat => p.number ptr + i

/-- The blocks a thread owns after a call that has returned 0. -/
def Call.owns (owned : Finset Int) (out : List Nat) : Call → Finset Int
  | .alloc _ => owned ∪ (out.map p.number).toFinset
  | .allocContiguous count =>
    match out with
    | [ptr] => owned ∪ p.blocks ptr count
    | _ => owned
  | .get inBlock count => owned ∪ p.blocks inBlock count
  | .free inBlocks => owned \ (inBlocks.map p.number).toFinset
  | .freeContiguous block count => owned \ p.blocks block count

/-- What operations do to the bit map, and to the bits that are set for a thread. -/
def semantics : Semantics BitArray (Finset Nat) Op Result where
  exec
    | .alloc numBits, ba => sysBitarrayAlloc ba p.wordBits numBits
    | .free numBits offset, ba => sysBitarrayFree ba p.wordBits numBits offset
    | .testAndSetRegion numBits offset toSet, ba => sysBitarrayTestAndSetRegion ba p.wordBits numBits offset toSet
  ledger
    | .alloc numBits, r, held => if r.1 = 0 then held ∪ Finset.Ico r.2 (r.2 + numBits) else held
    | .free numBits offset, r, held => if r = (0 : Int) then held \ Finset.Ico offset (offset + numBits) else held
    | .testAndSetRegion numBits offset toSet, r, held =>
      if r = (0 : Int) then
        if toSet then held ∪ Finset.Ico offset (offset + numBits) else held \ Finset.Ico offset (offset + numBits)
      else held
  can
    | .alloc _, _ => True
    | .free numBits offset, held => 0 < numBits ∧ Finset.Ico offset (offset + numBits) ⊆ held
    | .testAndSetRegion _ _ toSet, _ => toSet = true
  may
    | .alloc numBits, r, held =>
      r.1 = 0 → r.2 + numBits ≤ p.numBlocks ∧ Disjoint held (Finset.Ico r.2 (r.2 + numBits))
    | .free _ _, r, _ => r = (0 : Int)
    | .testAndSetRegion numBits offset _, r, held =>
      r = (0 : Int) → offset + numBits ≤ p.numBlocks ∧ Disjoint held (Finset.Ico offset (offset + numBits))

/-- Where a thread is; `before` are the bits set for it when the call began. -/
inductive Phase where
  | idle
  | busy (call : Call) (rest : Prog Op Result Ret) (before : Finset Nat)
  | returned (call : Call) (ret : Ret) (before : Finset Nat)

structure System (T : Type) where
  bitmap : BitArray
  phase : T → Phase
  /-- The bits that operations of a thread have set and not cleared. -/
  held : T → Finset Nat
  /-- The blocks a thread owns by what its calls have returned. -/
  owned : T → Finset Int

inductive Event (T : Type) where
  | call (t : T) (call : Call)
  /-- The next operation of a call, or its return. -/
  | go (t : T)

variable {T : Type} [DecidableEq T]

/-- No call of the thread is in progress. -/
def Phase.quiet : Phase → Bool
  | .busy .. => false
  | _ => true

/-- The next step of a thread that is in a call. -/
def System.go (s : System T) (t : T) (call : Call) (before : Finset Nat) : Prog Op Result Ret → System T
  | .ret r =>
    { s with
      phase := Function.update s.phase t (.returned call r before)
      owned := if r.ret = 0 then Function.update s.owned t (call.owns p (s.owned t) r.out) else s.owned }
  | .op o next =>
    let (r, bitmap) := (semantics p).exec o s.bitmap
    { s with
      bitmap
      phase := Function.update s.phase t (.busy call (next r) before)
      held := Function.update s.held t ((semantics p).ledger o r (s.held t)) }

/-- Events that cannot happen in a state have no next one. -/
def step (s : System T) : Event T → Except Unit (System T)
  | .call t call =>
    if (s.phase t).quiet then .ok { s with phase := Function.update s.phase t (.busy call (call.body p) (s.held t)) }
    else .error ()
  | .go t =>
    match s.phase t with
    | .busy call rest before => .ok (s.go p t call before rest)
    | _ => .error ()

/-- `SYS_MEM_BLOCKS_DEFINE`. -/
def start : System T where
  bitmap := BitArray.define p.numBlocks
  phase _ := .idle
  held _ := ∅
  owned _ := ∅

end Calls

end RtosKernel.Zephyr.MemBlocks
