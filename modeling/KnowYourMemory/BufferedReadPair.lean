import KnowYourMemory.BufferedRead
import KnowYourMemory.MagicMemory

/-!
# Two ends of a buffered read connection

Each end owns a ring that it sends from and fetches the other end's ring into a
buffer of its own. `Receive` reads the remote tail until it has moved, fetches the
section up to it, and from then on parses messages out of local memory. `Free`
writes the head back. The setup allocates two mappings at each end and registers
its receive buffer over the first of them, which is the ring it sends from.
-/

set_option autoImplicit false

namespace KYM.BufferedReadPair
open KYM.Circle KYM.RingBuffer KYM.BoundedStream KYM.MagicMemory KYM.BufferedRead

inductive Side where
  | dial
  | accept
  deriving DecidableEq, Repr

def Side.peer : Side → Side
  | .dial => .accept
  | .accept => .dial

/-- The double mappings that the setup of one end allocates. -/
inductive Mapping where
  | mbuf
  | mrcvbuf
  deriving DecidableEq, Repr

/-- The fields of `BufferedReadConnection` that `Receive` and `Free` use. -/
structure Receiver where
  bufAddr : UInt64
  length : UInt32
  remoteHead : UInt64
  readPtr : UInt64
  ackedHead : UInt64
  remoteTail : UInt64
  outstanding : List UInt64
  deriving DecidableEq, Repr

def Receiver.offset (r : Receiver) : UInt32 := (r.readPtr%r.length.toUInt64).toUInt32

def Receiver.sectionLen (r : Receiver) : UInt32 := (r.remoteTail-r.readPtr).toUInt32

def Receiver.receive (r : Receiver) (len : UInt32) : ReceiveRegion × Receiver :=
  let addr := r.bufAddr+r.offset.toUInt64
  (⟨addr, addr+prefixLen, len⟩,
    { r with
      readPtr := r.readPtr+(len.toUInt64+prefixLen)
      outstanding := r.outstanding++[addr] })

/-- The head that `Free` stores. An empty list has no front to dereference and is
left without effect on the head. -/
def Receiver.freedHead (r : Receiver) (reg : ReceiveRegion) : UInt64 :=
  match r.outstanding with
  | [] => r.remoteHead
  | front::rest =>
    if reg.context = front then
      match rest with
      | [] => r.readPtr
      | next::_ => next
    else r.remoteHead

def Receiver.free (r : Receiver) (reg : ReceiveRegion) : Receiver × Option UInt64 :=
  let remoteHead := r.freedHead reg
  let r := { r with
    remoteHead := remoteHead, outstanding := r.outstanding.filter (· ≠ reg.context) }
  if remoteHead-r.ackedHead > (r.length/3).toUInt64 then
    ({ r with ackedHead := remoteHead }, some remoteHead)
  else (r, none)

/-- One end with its memory; `fetching` is the point in `Receive` between the loop
and the section read. What follows is the history: payloads sent, regions received
and those still held, stream positions of the tail, the read pointer and the tail
that was read, and every tail published. -/
structure Connection where
  snd : Sender
  rcv : Receiver
  buffer : Mapping
  remoteBuffer : Mapping
  mem : Mapping → ℕ → UInt8
  fetching : Bool
  sent : List (List UInt8)
  got : List ReceiveRegion
  held : List (Span ℕ)
  sentPos : ℕ
  readPos : ℕ
  tailPos : ℕ
  tails : List ℕ

def newConnection (addr : Mapping → UInt64) (buffer remoteBuffer : Mapping)
    (bufLen remoteBufLen : UInt32) : Connection where
  snd := ⟨addr buffer, bufLen, 0, 0⟩
  rcv := ⟨addr remoteBuffer, remoteBufLen, 0, 0, 0, 0, []⟩
  buffer := buffer
  remoteBuffer := remoteBuffer
  mem := fun _ _ => 0
  fetching := false
  sent := []
  got := []
  held := []
  sentPos := 0
  readPos := 0
  tailPos := 0
  tails := [0]

def dialBufferedRead (addr : Mapping → UInt64) (bufSize : UInt32) : Connection :=
  newConnection addr .mbuf .mbuf bufSize bufSize

def accept (addr : Mapping → UInt64) (bufSize : UInt32) : Connection :=
  newConnection addr .mbuf .mbuf bufSize bufSize

def frame (payload : List UInt8) : List UInt8 :=
  putU32 (UInt32.ofNat payload.length)++payload.take (UInt32.ofNat payload.length).toNat

def send (c : Connection) (payload : List UInt8) : Option Connection :=
  match c.snd.send (UInt32.ofNat payload.length) with
  | .sent addr snd =>
    let sentPos := c.sentPos+(frame payload).length
    some { c with
      snd := snd
      mem := Function.update c.mem c.buffer
        (store c.snd.length.toNat (c.mem c.buffer) (addr-c.snd.bufAddr).toNat (frame payload))
      sent := c.sent++[payload]
      sentPos := sentPos
      tails := sentPos::c.tails }
  | _ => none

def readTail (c peer : Connection) (p : ℕ) : Option Connection :=
  if c.rcv.remoteTail = c.rcv.readPtr ∧ c.fetching = false ∧ p ∈ peer.tails ∧ c.readPos ≤ p then
    let tail := UInt64.ofNat p
    some { c with
      rcv := { c.rcv with remoteTail := tail }
      fetching := tail ≠ c.rcv.readPtr
      tailPos := p }
  else none

def fetch (c peer : Connection) : Option Connection :=
  if c.fetching then
    some { c with
      fetching := false
      mem := Function.update c.mem c.remoteBuffer
        (store c.rcv.length.toNat (c.mem c.remoteBuffer) c.rcv.offset.toNat
          (load peer.snd.length.toNat (peer.mem peer.buffer) c.rcv.offset.toNat
            c.rcv.sectionLen.toNat)) }
  else none

def bytesAt (c : Connection) (addr : UInt64) (n : ℕ) : List UInt8 :=
  load c.rcv.length.toNat (c.mem c.remoteBuffer) (addr-c.rcv.bufAddr).toNat n

def receive (c : Connection) : Option Connection :=
  if c.rcv.remoteTail ≠ c.rcv.readPtr ∧ c.fetching = false then
    let len := getU32 (bytesAt c (c.rcv.bufAddr+c.rcv.offset.toUInt64) 4)
    let (reg, rcv) := c.rcv.receive len
    some { c with
      rcv := rcv
      got := c.got++[reg]
      held := c.held++[⟨c.readPos, len.toNat+4, c.got.length⟩]
      readPos := c.readPos+(len.toNat+4) }
  else none

def free (c : Connection) (i : ℕ) : Option (Connection × Option UInt64) :=
  match c.held[i]? with
  | none => none
  | some m =>
    match c.got[m.body]? with
    | none => none
    | some reg =>
      let (rcv, head) := c.rcv.free reg
      some ({ c with rcv := rcv, held := c.held.eraseIdx i }, head)

abbrev Pair := Side → Connection

inductive Event where
  | send (s : Side) (payload : List UInt8)
  | readTail (s : Side) (p : ℕ)
  | fetch (s : Side)
  | receive (s : Side)
  | free (s : Side) (i : ℕ)
  deriving DecidableEq, Repr

def writeHead (c : Connection) : Option UInt64 → Connection
  | none => c
  | some head => { c with snd := { c.snd with head := head } }

def step (c : Pair) : Event → Option Pair
  | .send s payload => (send (c s) payload).map (Function.update c s)
  | .readTail s p => (readTail (c s) (c s.peer) p).map (Function.update c s)
  | .fetch s => (fetch (c s) (c s.peer)).map (Function.update c s)
  | .receive s => (receive (c s)).map (Function.update c s)
  | .free s i => (free (c s) i).map (fun r =>
      Function.update (Function.update c s r.1) s.peer (writeHead (c s.peer) r.2))

def init (dialAddr acceptAddr : Mapping → UInt64) (bufSize : UInt32) : Pair
  | .dial => dialBufferedRead dialAddr bufSize
  | .accept => accept acceptAddr bufSize

end KYM.BufferedReadPair
