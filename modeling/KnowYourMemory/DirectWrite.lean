import KnowYourMemory.RingBuffer
import KnowYourMemory.MagicMemory

/-!
# Direct Write

The receiver owns `nrBuffers` buffers and tells the sender about every buffer it
frees by writing an entry into the sender's array of target buffers. The sender
writes a message, always a whole buffer, to the next valid entry; the length of the
message is the last word of the buffer, and the receiver polls it. One direction of a
connection is modelled; writes of one side take effect whole and in posting order.
-/

set_option autoImplicit false

namespace KYM.DirectWrite
open KYM.RingBuffer KYM.MagicMemory

structure DirectWriteReceiveBuffer where
  addr : UInt64
  rkey : UInt32
  valid : Bool
  deriving DecidableEq, Repr

/-- The fields of `DirectWriteConnection` that this direction uses. -/
structure DirectWriteConnection where
  nextId : UInt64
  nrBuffers : UInt64
  bufSize : UInt32
  targetBuf : ℕ → DirectWriteReceiveBuffer
  rcvBuffers : ℕ → DirectWriteReceiveBuffer
  rcvHead : UInt32
  rcvTail : UInt32

def newConnection (nrBuffers : UInt64) (bufSize : UInt32) : DirectWriteConnection where
  nextId := 1
  nrBuffers := nrBuffers
  bufSize := bufSize
  targetBuf := fun _ => ⟨0, 0, false⟩
  rcvBuffers := fun _ => ⟨0, 0, false⟩
  rcvHead := 1
  rcvTail := 1

def getLengthOff (maxLen : UInt32) : ℕ := maxLen.toNat-4

def getMemoryRegion (bufSize : UInt32) (size : UInt64) : ℕ → UInt8 :=
  put (fun _ => 0) (getLengthOff bufSize) (putU32 size.toUInt32)

def filled (bufSize : UInt32) (payload : List UInt8) : ℕ → UInt8 :=
  put (getMemoryRegion bufSize (UInt64.ofNat payload.length)) 0 payload

/-- The write that is posted: target, key and the whole buffer. `none` is another
round of the loop that waits for a valid target. -/
def sendAsync (c : DirectWriteConnection) (buf : ℕ → UInt8) :
    Option ((UInt64 × UInt32 × List UInt8) × DirectWriteConnection) :=
  let i := (c.nextId%c.nrBuffers).toNat
  let target := c.targetBuf i
  if target.valid then
    some ((target.addr, target.rkey, fetch buf 0 c.bufSize.toNat),
      { c with
        nextId := c.nextId+1
        targetBuf := Function.update c.targetBuf i { target with valid := false } })
  else none

def msgLen (bufSize : UInt32) (buf : ℕ → UInt8) : UInt32 :=
  getU32 (fetch buf (getLengthOff bufSize) 4)

def receive (c : DirectWriteConnection) (bufs : UInt64 → ℕ → UInt8) :
    Option (KeyedRegion × DirectWriteConnection) :=
  let head := c.rcvHead.toNat
  let buf := c.rcvBuffers head
  let len := msgLen c.bufSize (bufs buf.addr)
  if len = 0 then none
  else
    some (⟨⟨0, buf.addr, len⟩, buf.rkey⟩,
      { c with
        rcvBuffers := Function.update c.rcvBuffers head { buf with valid := false }
        rcvHead := ((c.rcvHead+1).toUInt64%c.nrBuffers).toUInt32 })

def free (c : DirectWriteConnection) (region : KeyedRegion) :
    (ℕ × DirectWriteReceiveBuffer) × DirectWriteConnection :=
  let buf : DirectWriteReceiveBuffer := ⟨region.addr, region.lkey, true⟩
  let tail := c.rcvTail.toNat
  ((tail, buf),
    { c with
      rcvBuffers := Function.update c.rcvBuffers tail buf
      rcvTail := ((c.rcvTail+1).toUInt64%c.nrBuffers).toUInt32 })

structure Sent where
  target : UInt64
  rkey : UInt32
  payload : List UInt8
  deriving DecidableEq, Repr

/-- Both ends of the direction. `setup` are the buffers that the setup has still to
free, `slotWire` and `dataWire` the writes in flight; `freed`, `sent` and `got` record
the calls in their order and `held` the receives whose region is not freed. -/
structure System where
  snd : DirectWriteConnection
  rcv : DirectWriteConnection
  bufs : UInt64 → ℕ → UInt8
  setup : List KeyedRegion
  slotWire : List (ℕ × DirectWriteReceiveBuffer)
  dataWire : List (UInt64 × UInt32 × List UInt8)
  freed : List DirectWriteReceiveBuffer
  sent : List Sent
  got : List KeyedRegion
  held : List ℕ

def init (nrBuffers : UInt64) (bufSize : UInt32) (bufs : List (UInt64 × UInt32)) : System where
  snd := newConnection nrBuffers bufSize
  rcv := newConnection nrBuffers bufSize
  bufs := fun _ _ => 0
  setup := bufs.map (fun b => ⟨⟨0, b.1, 0⟩, b.2⟩)
  slotWire := []
  dataWire := []
  freed := []
  sent := []
  got := []
  held := []

inductive Event where
  | setup
  | send (payload : List UInt8)
  | deliverSlot
  | deliverData
  | receive
  | free (i : ℕ)
  deriving DecidableEq, Repr

def freeRegion (y : System) (region : KeyedRegion) : System :=
  let (post, rcv) := free y.rcv region
  { y with
    rcv := rcv
    bufs := Function.update y.bufs region.addr
      (put (y.bufs region.addr) (getLengthOff y.rcv.bufSize) (putU32 0))
    slotWire := y.slotWire++[post]
    freed := y.freed++[post.2] }

/-- The receiving application exists when the setup has freed every buffer. Regions
are freed by their place among those that are held. -/
def step (y : System) : Event → Option System
  | .setup =>
    match y.setup with
    | [] => none
    | region::rest => some (freeRegion { y with setup := rest } region)
  | .send payload =>
    match sendAsync y.snd (filled y.snd.bufSize payload) with
    | none => none
    | some (post, snd) =>
      some { y with
        snd := snd
        dataWire := y.dataWire++[post]
        sent := y.sent++[⟨post.1, post.2.1, payload⟩] }
  | .deliverSlot =>
    match y.slotWire with
    | [] => none
    | (i, buf)::rest =>
      some { y with
        snd := { y.snd with targetBuf := Function.update y.snd.targetBuf i buf }
        slotWire := rest }
  | .deliverData =>
    match y.dataWire with
    | [] => none
    | (addr, _, bytes)::rest =>
      some { y with
        bufs := Function.update y.bufs addr (put (y.bufs addr) 0 bytes)
        dataWire := rest }
  | .receive =>
    match y.setup, receive y.rcv y.bufs with
    | [], some (region, rcv) =>
      some { y with
        rcv := rcv, got := y.got++[region], held := y.held++[y.got.length] }
    | _, _ => none
  | .free i =>
    match y.setup, y.held[i]? with
    | [], some k =>
      match y.got[k]? with
      | none => none
      | some region => some (freeRegion { y with held := y.held.eraseIdx i } region)
    | _, _ => none

end KYM.DirectWrite
