import KnowYourMemory.Circle

/-!
# The two sides of a ring buffer

`Buffer` and `RemoteBuffer` carry the fields that the magic and the reversed
implementation have in common. Offsets are 32-bit words with the wrap-around of
the source. The magic ring is filled upwards, the reversed ring downwards.
-/

set_option autoImplicit false

namespace KYM.RingBuffer
open KYM.Circle

inductive StatusCode where
  | ok
  | unknown
  | internal
  | notImplemented
  | invalidArgument
  | notFound
  | rateLimit
  deriving DecidableEq, Repr

structure Status where
  code : StatusCode
  message : String
  deriving DecidableEq, Repr

abbrev StatusOr (α : Type) := Except Status α

def refusal {α : Type} : StatusOr α → Option Status
  | .ok _ => none
  | .error e => some e

/-- What `Receive` hands out and `Free` takes back. -/
structure ReceiveRegion where
  context : UInt64
  addr : UInt64
  length : UInt32
  deriving DecidableEq, Repr

/-- The region with the key of its memory, where that is looked at. -/
structure KeyedRegion extends ReceiveRegion where
  lkey : UInt32
  deriving DecidableEq, Repr

structure BufferContext where
  addr : UInt64
  key : UInt32
  length : UInt32
  deriving DecidableEq, Repr

/-- The receiver's side. -/
structure Buffer where
  addr : UInt64
  key : UInt32
  head : UInt32
  outstanding : List UInt32
  readPtr : UInt32
  length : UInt32
  deriving DecidableEq, Repr

/-- The sender's side. -/
structure RemoteBuffer where
  addr : UInt64
  length : UInt32
  key : UInt32
  head : UInt32
  tail : UInt32
  full : Bool
  deriving DecidableEq, Repr

/-- The memory region is registered with `2*size` bytes, computed in 32 bits,
and the ring takes half of the registered length. -/
def newRingBuffer (addr : UInt64) (key size : UInt32) : Buffer where
  addr := addr
  key := key
  head := 0
  outstanding := []
  readPtr := 0
  length := (2*size)/2

def Buffer.getContext (b : Buffer) : BufferContext := ⟨b.addr, b.key, b.length⟩

def newRemoteBuffer (ctx : BufferContext) : RemoteBuffer where
  addr := ctx.addr
  length := ctx.length
  key := ctx.key
  head := 0
  tail := 0
  full := false

/-- Offset of a region in the mapping, truncated to 32 bits. -/
def Buffer.regionStart (b : Buffer) (addr : UInt64) : UInt32 := (addr-b.addr).toUInt32

/-- The freeing that both rings implement: the head moves only when the oldest
outstanding region is freed, to the next stored offset or to the read pointer.
Freeing with nothing outstanding dereferences the end of the list and is left
without effect on the head here. -/
def Buffer.freeRegion (b : Buffer) (addr : UInt64) : UInt32 × Buffer :=
  let start := b.regionStart addr
  let head := match b.outstanding with
    | [] => b.head
    | front::rest =>
      if start = front then
        match rest with
        | [] => b.readPtr
        | next::_ => next
      else b.head
  (head, { b with head := head, outstanding := b.outstanding.filter (· ≠ start) })

def bufferFull : Status := ⟨.unknown, "buffer is full"⟩
def tooLarge : Status := ⟨.unknown, "message larger then buffer"⟩
def noSpace : Status := ⟨.unknown, "not enough free space for message"⟩

namespace Magic

def read (b : Buffer) (len : UInt32) : UInt64 × Buffer :=
  (b.addr+b.readPtr.toUInt64,
    { b with readPtr := (b.readPtr+len)%b.length, outstanding := b.outstanding++[b.readPtr] })

def getReadPtr (b : Buffer) : UInt64 := b.addr+b.readPtr.toUInt64

def getReadOff (b : Buffer) : UInt32 := b.readPtr

def free (b : Buffer) (addr : UInt64) : UInt32 × Buffer := b.freeRegion addr

def updateHead (r : RemoteBuffer) (head : UInt32) : RemoteBuffer :=
  { r with head := head, full := false }

def getWriteAddr (r : RemoteBuffer) (len : UInt32) : StatusOr UInt64 :=
  if r.head = r.tail ∧ r.full then .error bufferFull
  else if r.head = r.tail ∧ len > r.length then .error tooLarge
  else if r.head < r.tail ∧ (r.length-r.tail)+r.head ≤ len then .error noSpace
  else if r.head > r.tail ∧ r.head-r.tail ≤ len then .error noSpace
  else .ok (r.addr+r.tail.toUInt64)

def getNextTail (r : RemoteBuffer) (len : UInt32) : StatusOr UInt32 :=
  match getWriteAddr r len with
  | .error e => .error e
  | .ok _ => .ok ((r.tail+len)%r.length)

def write (r : RemoteBuffer) (len : UInt32) : StatusOr (UInt64 × RemoteBuffer) :=
  match getWriteAddr r len with
  | .error e => .error e
  | .ok addr =>
    let tail := (r.tail+len)%r.length
    .ok (addr, { r with tail := tail, full := tail = r.head })

end Magic

namespace Reverse

def read (b : Buffer) (len : UInt32) : UInt64 × Buffer :=
  let off := if b.readPtr > len then b.readPtr-len else b.length+b.readPtr-len
  (b.addr+off.toUInt64, { b with readPtr := off, outstanding := b.outstanding++[off] })

def getReadOff (b : Buffer) : UInt32 :=
  if b.readPtr > 0 then b.readPtr-1 else b.length-1

def getReadPtr (b : Buffer) : UInt64 := b.addr+(getReadOff b).toUInt64

def free (b : Buffer) (addr : UInt64) : UInt32 × Buffer := b.freeRegion addr

def updateHead (r : RemoteBuffer) (head : UInt32) : RemoteBuffer :=
  { r with head := head, full := false }

def getNextTail (r : RemoteBuffer) (len : UInt32) : StatusOr UInt32 :=
  if r.head = r.tail ∧ r.full then .error bufferFull
  else if r.head = r.tail ∧ len > r.length then .error tooLarge
  else if r.head > r.tail ∧ (r.length-r.head)+r.tail ≤ len then .error noSpace
  else if r.head < r.tail ∧ r.tail-r.head ≤ len then .error noSpace
  else .ok (if r.tail > len then r.tail-len else r.tail+r.length-len)

def getWriteAddr (r : RemoteBuffer) (len : UInt32) : StatusOr UInt64 :=
  match getNextTail r len with
  | .error e => .error e
  | .ok tail => .ok (r.addr+tail.toUInt64)

def write (r : RemoteBuffer) (len : UInt32) : StatusOr (UInt64 × RemoteBuffer) :=
  match getNextTail r len with
  | .error e => .error e
  | .ok tail => .ok (r.addr+tail.toUInt64, { r with tail := tail, full := tail = r.head })

end Reverse

def read : Direction → Buffer → UInt32 → UInt64 × Buffer
  | .up => Magic.read
  | .down => Reverse.read

def getReadOff : Direction → Buffer → UInt32
  | .up => Magic.getReadOff
  | .down => Reverse.getReadOff

def getReadPtr : Direction → Buffer → UInt64
  | .up => Magic.getReadPtr
  | .down => Reverse.getReadPtr

def free : Direction → Buffer → UInt64 → UInt32 × Buffer
  | .up => Magic.free
  | .down => Reverse.free

def updateHead : Direction → RemoteBuffer → UInt32 → RemoteBuffer
  | .up => Magic.updateHead
  | .down => Reverse.updateHead

def getWriteAddr : Direction → RemoteBuffer → UInt32 → StatusOr UInt64
  | .up => Magic.getWriteAddr
  | .down => Reverse.getWriteAddr

def getNextTail : Direction → RemoteBuffer → UInt32 → StatusOr UInt32
  | .up => Magic.getNextTail
  | .down => Reverse.getNextTail

def write : Direction → RemoteBuffer → UInt32 → StatusOr (UInt64 × RemoteBuffer)
  | .up => Magic.write
  | .down => Reverse.write

end KYM.RingBuffer
