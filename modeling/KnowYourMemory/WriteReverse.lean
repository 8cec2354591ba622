import KnowYourMemory.WriteSender

/-!
# Write Reverse

Messages are written downwards into the reversed ring. A message is a zero byte,
the payload, its length and a valid byte. The receiver polls the valid byte of the
next message; the leading zero byte of a message disarms that byte for the message
after it and is not claimed by the sender. Writes become visible byte by byte, in
increasing address order and in posting order.
-/

set_option autoImplicit false

namespace KYM.WriteReverse
open KYM.Circle KYM.RingBuffer KYM.MagicMemory
open KYM.WriteSender (bytesAt storeAt)

/-- What the application sends: the size it asks for and the bytes it fills in. -/
structure Message where
  size : UInt64
  payload : ℕ → UInt8

/-- An allocated buffer. The region's `addr` is its second byte. -/
structure SendRegion where
  buf : ℕ → UInt8
  length : UInt32

/-- The allocator records the length of a buffer in 32 bits. Where the recorded
length has no room for the trailer, the trailer would be stored in front of the
buffer, and no region results. -/
def getMemoryRegion (size : UInt64) : Option SendRegion :=
  let bufLength := (size+6).toUInt32
  if bufLength < 5 then none
  else
    let buf := put (fun _ => 0) 0 [0]
    let buf := put buf (bufLength.toNat-1) [1]
    let buf := put buf (bufLength.toNat-1-4) (putU32 (size+5).toUInt32)
    some ⟨buf, size.toUInt32⟩

def SendRegion.fill (reg : SendRegion) (payload : ℕ → UInt8) : SendRegion :=
  { reg with buf := fun i =>
      if 1 ≤ i ∧ i < 1+reg.length.toNat then payload (i-1) else reg.buf i }

def written (snd : RemoteBuffer) (len : UInt32) : RemoteBuffer :=
  match Reverse.write snd len with
  | .ok (_, snd') => snd'
  | .error _ => snd

/-- The write that is posted, and the sender's ring afterwards: one byte of the
write is left to the next message. -/
def sendAsync (snd : RemoteBuffer) (reg : SendRegion) :
    StatusOr (UInt64 × List UInt8 × RemoteBuffer) :=
  let len := reg.length+6
  match Reverse.getWriteAddr snd len with
  | .error e => .error e
  | .ok addr => .ok (addr, fetch reg.buf 0 len.toNat, written snd (len-1))

def next (rbuf : Buffer) : UInt64 := Reverse.getReadPtr rbuf+rbuf.length.toUInt64

def msgLenAddr (rbuf : Buffer) : UInt64 := next rbuf-4

def polled (rbuf : Buffer) (mem : ℕ → UInt8) : UInt8 := (bytesAt rbuf mem (next rbuf) 1).headD 0

def receive (rbuf : Buffer) (mem : ℕ → UInt8) : ReceiveRegion × Buffer :=
  let msgLen := getU32 (bytesAt rbuf mem (msgLenAddr rbuf) 4)
  let (addr, rbuf) := Reverse.read rbuf msgLen
  (⟨0, addr, msgLen-1-4⟩, rbuf)

def free (rbuf : Buffer) (reg : ReceiveRegion) : UInt32 × Buffer := Reverse.free rbuf reg.addr

/-- Where the receiving application stands: in the polling loop, behind it, or
with a region that it has not freed. -/
inductive Phase where
  | polling
  | parsing
  | holding (reg : ReceiveRegion)
  deriving DecidableEq, Repr

/-- One connection with read acknowledgement. A write in flight is the address of
its next byte and the bytes that are still to arrive; `tails` is the sender's tail
after each message. -/
structure Connection where
  snd : RemoteBuffer
  rcv : Buffer
  currOffset : UInt32
  mem : ℕ → UInt8
  wire : List (UInt64 × List UInt8)
  sent : List Message
  tails : List UInt32
  got : List ReceiveRegion
  phase : Phase

inductive Event where
  | send (msg : Message)
  | updateHead
  | arrive
  | poll
  | receive
  | free

def init (addr : UInt64) (key size : UInt32) : Connection where
  snd := newRemoteBuffer (newRingBuffer addr key size).getContext
  rcv := newRingBuffer addr key size
  currOffset := 0
  mem := fun _ => 0
  wire := []
  sent := []
  tails := [0]
  got := []
  phase := .polling

def send (c : Connection) (msg : Message) : Option Connection :=
  match getMemoryRegion msg.size with
  | none => none
  | some reg =>
    match sendAsync c.snd (reg.fill msg.payload) with
    | .error _ => none
    | .ok (addr, bytes, snd) =>
      some { c with
        snd := snd
        wire := c.wire++[(addr, bytes)]
        sent := c.sent++[msg]
        tails := c.tails++[snd.tail] }

def arrive (c : Connection) : Option Connection :=
  match c.wire with
  | [] => none
  | (_, [])::wire => some { c with wire := wire }
  | (addr, b::bytes)::wire =>
    some { c with
      mem := storeAt c.rcv c.mem addr [b]
      wire := if bytes.isEmpty then wire else (addr+1, bytes)::wire }

def step (c : Connection) : Event → Option Connection
  | .send msg => send c msg
  | .updateHead => some { c with snd := Reverse.updateHead c.snd c.currOffset }
  | .arrive => arrive c
  | .poll =>
    match c.phase with
    | .polling => if polled c.rcv c.mem = 0 then some c else some { c with phase := .parsing }
    | _ => none
  | .receive =>
    match c.phase with
    | .parsing =>
      let (reg, rcv) := receive c.rcv c.mem
      some { c with rcv := rcv, got := c.got++[reg], phase := .holding reg }
    | _ => none
  | .free =>
    match c.phase with
    | .holding reg =>
      let (head, rcv) := free c.rcv reg
      some { c with rcv := rcv, currOffset := head, phase := .polling }
    | _ => none

end KYM.WriteReverse
