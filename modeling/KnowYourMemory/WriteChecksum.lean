import KnowYourMemory.WriteSender

/-!
# Checksummed Write

A message is its length on the ring, a checksum over length and payload, and the
payload. The receiver polls the length at its read position and repeats the checksum
until it agrees with the stored one. A freed region is cleared before the head is
acknowledged. Writes become visible as a whole and in posting order. The checksum
`crc` of the bytes processed since a reset is a parameter; `crc32` is the library's.
-/

set_option autoImplicit false

namespace KYM.WriteChecksum
open KYM.Circle KYM.RingBuffer KYM.MagicMemory
open KYM.WriteSender (bytesAt storeAt written)

def crcBit (r : UInt32) : UInt32 := if r &&& 1 = 1 then (r >>> 1) ^^^ 0xEDB88320 else r >>> 1

def crcByte (r : UInt32) (b : UInt8) : UInt32 :=
  (List.range 8).foldl (fun r _ => crcBit r) (r ^^^ b.toUInt32)

def crc32 (bytes : List UInt8) : UInt32 := bytes.foldl crcByte 0xFFFFFFFF ^^^ 0xFFFFFFFF

example : crc32 [49, 50, 51, 52, 53, 54, 55, 56, 57] = 0xCBF43926 := by decide +kernel

/-- The length word of the allocated buffer, the payload behind the two words, and
the length that `GetMemoryRegion` recorded. -/
structure SendRegion where
  header : UInt32
  payload : List UInt8
  length : UInt32
  deriving DecidableEq, Repr

def getMemoryRegion (payload : List UInt8) : SendRegion where
  header := UInt32.ofNat (payload.length+8)
  payload := payload
  length := UInt32.ofNat payload.length

section Checksum

variable (crc : List UInt8 → UInt32)

def sendAsync (snd : RemoteBuffer) (reg : SendRegion) :
    StatusOr (UInt64 × List UInt8 × RemoteBuffer) :=
  let len := reg.length+8
  match Magic.getWriteAddr snd len with
  | .error e => .error e
  | .ok addr =>
    let result := crc (putU32 reg.header++reg.payload.take reg.length.toNat)
    .ok (addr, (putU32 reg.header++putU32 result++reg.payload).take len.toNat, written snd len)

def polled (rbuf : Buffer) (mem : ℕ → UInt8) : UInt32 :=
  getU32 (bytesAt rbuf mem (Magic.getReadPtr rbuf) 4)

def region (head : UInt64) (length : UInt32) : ReceiveRegion := ⟨0, head+8, length-8⟩

def stored (rbuf : Buffer) (mem : ℕ → UInt8) (reg : ReceiveRegion) : UInt32 :=
  getU32 (bytesAt rbuf mem (reg.addr-4) 4)

def process (rbuf : Buffer) (mem : ℕ → UInt8) (reg : ReceiveRegion) : UInt32 :=
  crc (bytesAt rbuf mem (Magic.getReadPtr rbuf) 4++bytesAt rbuf mem reg.addr reg.length.toNat)

def free (rbuf : Buffer) (reg : ReceiveRegion) : UInt32 × Buffer := Magic.free rbuf (reg.addr-8)

/-- Where the receiving application stands: in the polling loop, behind it, in the
checksum loop after some rounds, with a region that it has not freed, or in `Free`
with some bytes cleared and the new head not yet acknowledged. -/
inductive Phase where
  | polling
  | parsing
  | checking (length : UInt32) (reg : ReceiveRegion) (result : UInt32) (rounds : ℕ)
  | holding (reg : ReceiveRegion)
  | clearing (reg : ReceiveRegion) (head : UInt32) (cleared : ℕ)
  deriving DecidableEq, Repr

/-- A message and the address that the sender's ring gave it. -/
structure Message where
  addr : UInt64
  payload : List UInt8
  deriving DecidableEq, Repr

/-- One connection with read acknowledgement. -/
structure Connection where
  snd : RemoteBuffer
  rcv : Buffer
  currOffset : UInt32
  mem : ℕ → UInt8
  wire : List (UInt64 × List UInt8)
  sent : List Message
  got : List ReceiveRegion
  phase : Phase

inductive Event where
  | send (payload : List UInt8)
  | updateHead
  | deliver
  | poll
  | parse
  | check
  | free
  | clear
  | ack
  deriving DecidableEq, Repr

def init (addr : UInt64) (key size : UInt32) : Connection where
  snd := newRemoteBuffer (newRingBuffer addr key size).getContext
  rcv := newRingBuffer addr key size
  currOffset := 0
  mem := fun _ => 0
  wire := []
  sent := []
  got := []
  phase := .polling

def deliver (c : Connection) : Option Connection :=
  match c.wire with
  | [] => none
  | (addr, bytes)::wire => some { c with mem := storeAt c.rcv c.mem addr bytes, wire := wire }

/-- A send is taken when its space check succeeds; before that the sender repeats
`updateHead`. `Receive` and `Free` alternate, and other events may come between
their steps. -/
def step (c : Connection) : Event → Option Connection
  | .send payload =>
    match sendAsync crc c.snd (getMemoryRegion payload) with
    | .error _ => none
    | .ok (addr, bytes, snd) =>
      some { c with
        snd := snd
        wire := c.wire++[(addr, bytes)]
        sent := c.sent++[⟨addr, payload⟩] }
  | .updateHead => some { c with snd := Magic.updateHead c.snd c.currOffset }
  | .deliver => deliver c
  | .poll =>
    match c.phase with
    | .polling => if polled c.rcv c.mem = 0 then some c else some { c with phase := .parsing }
    | _ => none
  | .parse =>
    match c.phase with
    | .parsing =>
      let length := polled c.rcv c.mem
      let reg := region (Magic.getReadPtr c.rcv) length
      some { c with phase := .checking length reg (crc []) 0 }
    | _ => none
  | .check =>
    match c.phase with
    | .checking length reg result rounds =>
      if stored c.rcv c.mem reg ≠ result then
        some { c with phase := .checking length reg (process crc c.rcv c.mem reg) (rounds+1) }
      else
        some { c with
          rcv := (Magic.read c.rcv length).2
          got := c.got++[reg]
          phase := .holding reg }
    | _ => none
  | .free =>
    match c.phase with
    | .holding reg =>
      let (head, rcv) := free c.rcv reg
      some { c with rcv := rcv, phase := .clearing reg head 0 }
    | _ => none
  | .clear =>
    match c.phase with
    | .clearing reg head n =>
      if n < reg.length.toNat+8 then
        some { c with
          mem := storeAt c.rcv c.mem (reg.addr-8+UInt64.ofNat n) [0]
          phase := .clearing reg head (n+1) }
      else none
    | _ => none
  | .ack =>
    match c.phase with
    | .clearing reg head n =>
      if n < reg.length.toNat+8 then none
      else some { c with currOffset := head, phase := .polling }
    | _ => none

end Checksum

def freed (c : Connection) : ℕ :=
  match c.phase with
  | .holding _ | .clearing _ _ _ => c.got.length-1
  | _ => c.got.length

def arrived (c : Connection) : ℕ := c.sent.length-c.wire.length

def unfreed (c : Connection) : List Message := (c.sent.take (arrived c)).drop (freed c)

def occupied (c : Connection) (m : Message) : Finset ℕ :=
  cells c.rcv.length.toNat (m.addr-c.rcv.addr).toNat (m.payload.length+8)

end KYM.WriteChecksum
