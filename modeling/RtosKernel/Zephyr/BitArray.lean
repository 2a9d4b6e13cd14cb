import RtosKernel.Lib.BitSet

/-! # Bit arrays (`bitarray.c`)

A bit array is a row of bundles of 32 bits. A region of it is tested and written one bundle
at a time, under masks for the first and the last bundle. Every call holds the spinlock
throughout, so it is atomic. Assertions are taken to be off. -/
namespace RtosKernel.Zephyr.BitArrays
open Lib.BitSet

def einval : Int := -22
def efault : Int := -14
def enospc : Int := -28
def eexist : Int := -17

/-- `sys_bitarray_t`. -/
structure BitArray where
  numBits : Nat
  numBundles : Nat
  bundles : Nat → BitVec 32

def BitArray.define (totalBits : Nat) : BitArray where
  numBits := totalBits
  numBundles := ((totalBits + 8 - 1) / 8 + 4 - 1) / 4
  bundles _ := 0#32

structure BundleData where
  sidx : Nat
  eidx : Nat
  soff : Nat
  eoff : Nat
  smask : BitVec 32
  emask : BitVec 32

abbrev bundleBitness : Nat := 32

def bit (n : Nat) : BitVec 32 := 1#32 <<< n

/-- `offset + num_bits - 1`, where sizes and offsets have `w` bits. -/
def offEnd (w offset numBits : Nat) : Nat := (offset + numBits + (2 ^ w - 1)) % 2 ^ w

def setupBundleData (w offset numBits : Nat) : BundleData :=
  let sidx := offset / bundleBitness
  let soff := offset % bundleBitness
  let eidx := offEnd w offset numBits / bundleBitness
  let eoff := offEnd w offset numBits % bundleBitness
  let smask := ~~~(bit soff - 1)
  let emask := (bit eoff - 1) ||| bit eoff
  { sidx, eidx, soff, eoff, smask := if sidx = eidx then smask &&& emask else smask, emask }

def findLsbSet (op : BitVec 32) : Nat :=
  match (List.range 32).find? fun i => op.getLsbD i with
  | some i => i + 1
  | none => 0

/-- The mismatch `match_region` reports for a bundle. -/
def mismatchBit (mismatchBundle : BitVec 32) (idx : Nat) : Nat :=
  (findLsbSet mismatchBundle + (2 ^ 32 - 1) + idx * bundleBitness) % 2 ^ 32

section Regions
variable (bitarray : BitArray)

/-- A bundle as `match_region` compares it with a mask. -/
def BitArray.view (matchSet : Bool) (idx : Nat) : BitVec 32 :=
  if matchSet then bitarray.bundles idx else ~~~bitarray.bundles idx

/-- The loop of `match_region` over `n` bundles in between, from `idx` on: `mismatch_bundle` and
`mismatch_bundle_idx` of the first one that does not match. -/
def matchBetween (matchSet : Bool) (idx : Nat) : Nat → Option (BitVec 32 × Nat)
  | 0 => none
  | n + 1 =>
    let bundle := bitarray.view (!matchSet) idx
    -- here the bits that match are reported, not those that do not
    if bundle ≠ 0 then some (~~~bundle, idx) else matchBetween matchSet (idx + 1) n

/-- `match_region` up to `mismatch`; `none` goes to `out`. -/
def mismatchBundle (w offset numBits : Nat) (matchSet : Bool) : Option (BitVec 32 × Nat) :=
  let bd := setupBundleData w offset numBits
  let bundle := bitarray.view matchSet bd.sidx
  if bundle &&& bd.smask ≠ bd.smask then some (~~~bundle &&& bd.smask, bd.sidx)
  else if bd.sidx = bd.eidx then none
  else
    let bundle := bitarray.view matchSet bd.eidx
    if bundle &&& bd.emask ≠ bd.emask then some (~~~bundle &&& bd.emask, bd.eidx)
    else matchBetween bitarray matchSet (bd.sidx + 1) (bd.eidx - bd.sidx - 1)

/-- `match_region`; `none` is the result true, and otherwise there is the mismatch. -/
def matchRegion (w offset numBits : Nat) (matchSet : Bool) : Option Nat :=
  (mismatchBundle bitarray w offset numBits matchSet).map fun m => mismatchBit m.1 m.2

/-- One bundle is changed under a mask. -/
def BitArray.write (idx : Nat) (mask : BitVec 32) (toSet : Bool) : BitArray :=
  { bitarray with
    bundles := Function.update bitarray.bundles idx
      (if toSet then bitarray.bundles idx ||| mask else bitarray.bundles idx &&& ~~~mask) }

/-- The loop of `set_region` over the bundles in between. -/
def setBetween (toSet : Bool) (bitarray : BitArray) (idx : Nat) : Nat → BitArray
  | 0 => bitarray
  | n + 1 =>
    setBetween toSet
      { bitarray with bundles := Function.update bitarray.bundles idx (if toSet then ~~~0#32 else 0#32) } (idx + 1) n

def setRegion (w offset numBits : Nat) (toSet : Bool) : BitArray :=
  let bd := setupBundleData w offset numBits
  if bd.sidx = bd.eidx then bitarray.write bd.sidx bd.smask toSet
  else
    setBetween toSet ((bitarray.write bd.sidx bd.smask toSet).write bd.eidx bd.emask toSet) (bd.sidx + 1)
      (bd.eidx - bd.sidx - 1)

/-- The loop of `sys_bitarray_alloc` that looks for the first bundle with a free bit. -/
def firstFree (idx bitIdx : Nat) : Nat → Nat
  | 0 => bitIdx
  | n + 1 =>
    if ~~~bitarray.bundles idx = 0 then firstFree (idx + 1) ((bitIdx + bundleBitness) % 2 ^ 32) n
    else if bitarray.bundles idx ≠ 0 then (bitIdx + (findLsbSet (~~~bitarray.bundles idx) - 1)) % 2 ^ 32
    else bitIdx

/-- The loop of `sys_bitarray_alloc` that looks for a free region; the number bounds its rounds. -/
def allocFrom (w numBits offEnd : Nat) : Nat → Nat → Option Nat
  | 0, _ => none
  | n + 1, bitIdx =>
    if bitIdx ≤ offEnd then
      match matchRegion bitarray w bitIdx numBits false with
      | none => some bitIdx
      | some mismatch => allocFrom w numBits offEnd n ((mismatch + 1) % 2 ^ 32)
    else none

/-- `sys_bitarray_alloc`: what it returns, and `*offset` if this is 0. -/
def sysBitarrayAlloc (w numBits : Nat) : (Int × Nat) × BitArray :=
  if numBits = 0 ∨ numBits > bitarray.numBits then ((einval, 0), bitarray)
  else
    match allocFrom bitarray w numBits (bitarray.numBits - numBits) (bitarray.numBits + 1)
      (firstFree bitarray 0 0 bitarray.numBundles) with
    | some bitIdx => ((0, bitIdx), setRegion bitarray w bitIdx numBits true)
    | none => ((enospc, 0), bitarray)

def BitArray.outside (w numBits offset : Nat) : Bool :=
  numBits = 0 ∨ numBits > bitarray.numBits ∨ offset ≥ bitarray.numBits ∨
    offEnd w offset numBits ≥ bitarray.numBits

def sysBitarrayFree (w numBits offset : Nat) : Int × BitArray :=
  if bitarray.outside w numBits offset then (einval, bitarray)
  else
    match matchRegion bitarray w offset numBits true with
    | none => (0, setRegion bitarray w offset numBits false)
    | some _ => (efault, bitarray)

def sysBitarrayTestAndSetRegion (w numBits offset : Nat) (toSet : Bool) : Int × BitArray :=
  if bitarray.outside w numBits offset then (einval, bitarray)
  else
    match matchRegion bitarray w offset numBits (!toSet) with
    | none => (0, setRegion bitarray w offset numBits toSet)
    | some _ => (eexist, bitarray)

def isRegionSetClear (w numBits offset : Nat) (toSet : Bool) : Bool :=
  if bitarray.outside w numBits offset then false else (matchRegion bitarray w offset numBits toSet).isNone

def sysBitarrayIsRegionSet (w numBits offset : Nat) : Bool := isRegionSetClear bitarray w numBits offset true

def sysBitarrayIsRegionCleared (w numBits offset : Nat) : Bool := isRegionSetClear bitarray w numBits offset false

def setClearRegion (w numBits offset : Nat) (toSet : Bool) : Int × BitArray :=
  if bitarray.outside w numBits offset then (einval, bitarray) else (0, setRegion bitarray w offset numBits toSet)

def sysBitarraySetRegion (w numBits offset : Nat) : Int × BitArray := setClearRegion bitarray w numBits offset true

def sysBitarrayClearRegion (w numBits offset : Nat) : Int × BitArray := setClearRegion bitarray w numBits offset false

end Regions

end RtosKernel.Zephyr.BitArrays
