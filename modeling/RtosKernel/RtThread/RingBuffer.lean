import RtosKernel.Lib.Window
import RtosKernel.RtThread.Def

/-! # The ring buffer of the device drivers (`ringbuffer.c`)

The read and the write position are a 15-bit index and a mirror bit each. With equal indices, equal mirrors mean
empty and different mirrors mean full. -/
namespace RtosKernel.RtThread.RingBuffer
open Lib.Word Lib.Window RtThread.Def

/-- `struct rt_ringbuffer`; `bufferPtr` is the memory `buffer_ptr` points to. -/
structure RtRingbuffer where
  bufferPtr : Nat → UInt8
  readMirror : Bool
  readIndex : Nat
  writeMirror : Bool
  writeIndex : Nat
  bufferSize : Nat

inductive RtRingbufferState where
  | empty
  | full
  | halffull
  deriving DecidableEq, Repr

/-- Assignment to a 15-bit index field keeps the low 15 bits. -/
def index15 (x : Nat) : Nat := x % 2 ^ 15

def rtRingbufferStatus (rb : RtRingbuffer) : RtRingbufferState :=
  if rb.readIndex = rb.writeIndex then
    if rb.readMirror = rb.writeMirror then .empty else .full
  else .halffull

def rtRingbufferInit (alignSize : Nat) (pool : Nat → UInt8) (size : Nat) : RtRingbuffer where
  bufferPtr := pool
  readMirror := false
  readIndex := 0
  writeMirror := false
  writeIndex := 0
  bufferSize := rtAlignDown size alignSize

def rtRingbufferDataLen (rb : RtRingbuffer) : Nat :=
  match rtRingbufferStatus rb with
  | .empty => 0
  | .full => rb.bufferSize
  | .halffull =>
    let wi := rb.writeIndex
    let ri := rb.readIndex
    if wi > ri then sub32 wi ri else sub32 rb.bufferSize (sub32 ri wi)

/-- The macro `rt_ringbuffer_space_len`. -/
def rtRingbufferSpaceLen (rb : RtRingbuffer) : Nat :=
  sub32 rb.bufferSize (rtRingbufferDataLen rb)

def rtRingbufferPut (rb : RtRingbuffer) (ptr : List UInt8) : RtRingbuffer × Nat :=
  -- `size` is an `rt_uint16_t`
  let size := rtRingbufferSpaceLen rb % 2 ^ 16
  if size = 0 then (rb, 0)
  else
    let length := if size < ptr.length then size else ptr.length
    if rb.bufferSize - rb.writeIndex > length then
      ({ rb with
          bufferPtr := memcpy rb.bufferPtr rb.writeIndex (ptr.take length)
          writeIndex := index15 (rb.writeIndex + length) }, length)
    else
      let upper := rb.bufferSize - rb.writeIndex
      ({ rb with
          bufferPtr := memcpy (memcpy rb.bufferPtr rb.writeIndex (ptr.take upper)) 0
            ((ptr.drop upper).take (length - upper))
          writeMirror := !rb.writeMirror
          writeIndex := index15 (length - upper) }, length)

def rtRingbufferPutForce (rb : RtRingbuffer) (ptr : List UInt8) : RtRingbuffer × Nat :=
  let spaceLength := rtRingbufferSpaceLen rb % 2 ^ 16
  -- longer data: only its last `buffer_size` bytes are written
  let (ptr, length) :=
    if ptr.length > rb.bufferSize then (ptr.drop (ptr.length - rb.bufferSize), rb.bufferSize)
    else (ptr, ptr.length)
  if rb.bufferSize - rb.writeIndex > length then
    let writeIndex := index15 (rb.writeIndex + length)
    ({ rb with
        bufferPtr := memcpy rb.bufferPtr rb.writeIndex (ptr.take length)
        writeIndex := writeIndex
        readIndex := if length > spaceLength then writeIndex else rb.readIndex }, length)
  else
    let upper := rb.bufferSize - rb.writeIndex
    let writeIndex := index15 (length - upper)
    ({ rb with
        bufferPtr := memcpy (memcpy rb.bufferPtr rb.writeIndex (ptr.take upper)) 0
          ((ptr.drop upper).take (length - upper))
        writeMirror := !rb.writeMirror
        writeIndex := writeIndex
        readMirror := if length > spaceLength ∧ writeIndex ≤ rb.readIndex then !rb.readMirror
          else rb.readMirror
        readIndex := if length > spaceLength then writeIndex else rb.readIndex }, length)

/-- The bytes copied out are returned beside the length. -/
def rtRingbufferGet (rb : RtRingbuffer) (length : Nat) : RtRingbuffer × Nat × List UInt8 :=
  let size := rtRingbufferDataLen rb
  if size = 0 then (rb, 0, [])
  else
    let length := if size < length then size else length
    if rb.bufferSize - rb.readIndex > length then
      ({ rb with readIndex := index15 (rb.readIndex + length) }, length,
        (List.range length).map fun i => rb.bufferPtr (rb.readIndex + i))
    else
      let upper := rb.bufferSize - rb.readIndex
      ({ rb with
          readMirror := !rb.readMirror
          readIndex := index15 (length - upper) }, length,
        ((List.range upper).map fun i => rb.bufferPtr (rb.readIndex + i)) ++
          (List.range (length - upper)).map fun i => rb.bufferPtr i)

/-- The bytes readable through `*ptr` are returned beside the size. -/
def rtRingbufferPeak (rb : RtRingbuffer) : RtRingbuffer × Nat × List UInt8 :=
  let size := rtRingbufferDataLen rb
  if size = 0 then (rb, 0, [])
  else if rb.bufferSize - rb.readIndex > size then
    ({ rb with readIndex := index15 (rb.readIndex + size) }, size,
      (List.range size).map fun i => rb.bufferPtr (rb.readIndex + i))
  else
    let size := rb.bufferSize - rb.readIndex
    ({ rb with readMirror := !rb.readMirror, readIndex := 0 }, size,
      (List.range size).map fun i => rb.bufferPtr (rb.readIndex + i))

def rtRingbufferPutchar (rb : RtRingbuffer) (ch : UInt8) : RtRingbuffer × Nat :=
  if rtRingbufferSpaceLen rb = 0 then (rb, 0)
  else
    let rb := { rb with bufferPtr := memcpy rb.bufferPtr rb.writeIndex [ch] }
    if rb.writeIndex = rb.bufferSize - 1 then
      ({ rb with writeMirror := !rb.writeMirror, writeIndex := 0 }, 1)
    else ({ rb with writeIndex := index15 (rb.writeIndex + 1) }, 1)

def rtRingbufferPutcharForce (rb : RtRingbuffer) (ch : UInt8) : RtRingbuffer × Nat :=
  let oldState := rtRingbufferStatus rb
  let rb := { rb with bufferPtr := memcpy rb.bufferPtr rb.writeIndex [ch] }
  if rb.writeIndex = rb.bufferSize - 1 then
    let rb := { rb with writeMirror := !rb.writeMirror, writeIndex := 0 }
    if oldState = .full then
      ({ rb with readMirror := !rb.readMirror, readIndex := rb.writeIndex }, 1)
    else (rb, 1)
  else
    let rb := { rb with writeIndex := index15 (rb.writeIndex + 1) }
    if oldState = .full then ({ rb with readIndex := rb.writeIndex }, 1) else (rb, 1)

def rtRingbufferGetchar (rb : RtRingbuffer) : RtRingbuffer × Nat × List UInt8 :=
  if rtRingbufferDataLen rb = 0 then (rb, 0, [])
  else
    let ch := rb.bufferPtr rb.readIndex
    if rb.readIndex = rb.bufferSize - 1 then
      ({ rb with readMirror := !rb.readMirror, readIndex := 0 }, 1, [ch])
    else ({ rb with readIndex := index15 (rb.readIndex + 1) }, 1, [ch])

def rtRingbufferReset (rb : RtRingbuffer) : RtRingbuffer :=
  { rb with readMirror := false, readIndex := 0, writeMirror := false, writeIndex := 0 }

end RtosKernel.RtThread.RingBuffer
