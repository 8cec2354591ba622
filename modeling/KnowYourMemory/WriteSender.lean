import KnowYourMemory.Channel
import KnowYourMemory.MagicMemory

/-!
# Write Offset and Write Immediate

Both senders write their messages one after another into a magic ring. Write Offset
puts the length in front of the message and then writes the new tail to a word that
the receiver polls; Write Immediate announces the message by a completion that
carries the length. Operations of one connection take effect in posting order.
-/

set_option autoImplicit false

namespace KYM.WriteSender
open KYM.Circle KYM.RingBuffer KYM.BoundedStream KYM.MagicMemory

inductive Format where
  | offset
  | imm
  deriving DecidableEq, Repr

/-- A registered region: the bytes in front of `addr`, the bytes at `addr`, and
the length that `GetMemoryRegion` recorded. -/
structure SendRegion where
  header : List UInt8
  payload : List UInt8
  length : UInt32
  deriving DecidableEq, Repr

inductive Op where
  | write (addr : UInt64) (bytes : List UInt8)
  | writeTail (tail : UInt32)
  | writeImm (addr : UInt64) (bytes : List UInt8) (imm : UInt32)
  deriving DecidableEq, Repr

def bytesAt (b : Buffer) (mem : ℕ → UInt8) (addr : UInt64) (n : ℕ) : List UInt8 :=
  load b.length.toNat mem (addr-b.addr).toNat n

def storeAt (b : Buffer) (mem : ℕ → UInt8) (addr : UInt64) (bytes : List UInt8) : ℕ → UInt8 :=
  store b.length.toNat mem (addr-b.addr).toNat bytes

def written (snd : RemoteBuffer) (len : UInt32) : RemoteBuffer :=
  match Magic.write snd len with
  | .ok (_, snd') => snd'
  | .error _ => snd

theorem sent_written {α : Type} {L : ℕ} {c : Channel.Link α} {s : Tape α (L-1)} (h2 : 2*L < 2^32)
    (hr : Channel.Refines .up L c s) (len : UInt32) (body : α)
    (hlen : 0 < len.toNat ∧ len.toNat < L) (addr : UInt64)
    (ha : Magic.getWriteAddr c.snd len = .ok addr) :
    ∃ s', addr = (Channel.slotOf .up L c.rcv.addr ⟨s.tail, len.toNat, body⟩).addr ∧
      Tape.step s (.send len.toNat body) = some s' ∧
      Channel.Refines .up L (Channel.linkOf .up L (written c.snd len) c.rcv c.currOffset s') s' := by
  have hz : (0 : UInt32).toNat < len.toNat ∧ ((0 : UInt32) = 0 → len.toNat < L) :=
    ⟨hlen.1, fun _ => hlen.2⟩
  obtain ⟨addr', snd, s', hw, haddr, hst, hr'⟩ := Channel.sent_link h2 hr len body hz addr ha
  rw [UInt32.sub_zero] at hw haddr hst
  have hw : Magic.write c.snd len = .ok (addr', snd) := hw
  have heq : addr = addr' := by
    simp only [Magic.write, ha, Except.ok.injEq, Prod.mk.injEq] at hw
    exact hw.1
  have hsnd : written c.snd len = snd := by simp only [written, hw]
  exact ⟨s', heq.trans haddr, hst, hsnd ▸ hr'⟩

namespace WriteOffset

def getMemoryRegion (payload : List UInt8) : SendRegion where
  header := putU32 (UInt32.ofNat (payload.length+4))
  payload := payload
  length := UInt32.ofNat payload.length

def sendAsync (snd : RemoteBuffer) (reg : SendRegion) : StatusOr (List Op × RemoteBuffer) :=
  let len := reg.length+4
  match Magic.getWriteAddr snd len with
  | .error e => .error e
  | .ok addr =>
    match Magic.getNextTail snd len with
    | .error e => .error e
    | .ok tail =>
      .ok ([.write addr ((reg.header++reg.payload).take len.toNat), .writeTail tail],
        written snd len)

def receive (rbuf : Buffer) (tail : UInt32) (mem : ℕ → UInt8) : Option (ReceiveRegion × Buffer) :=
  if tail = Magic.getReadOff rbuf then none
  else
    let head := Magic.getReadPtr rbuf
    let length := getU32 (bytesAt rbuf mem head 4)
    some (⟨0, head+4, length-4⟩, (Magic.read rbuf length).2)

def free (rbuf : Buffer) (reg : ReceiveRegion) : UInt32 × Buffer := Magic.free rbuf (reg.addr-4)

end WriteOffset

namespace WriteImm

def getMemoryRegion (payload : List UInt8) : SendRegion where
  header := []
  payload := payload
  length := UInt32.ofNat payload.length

def sendAsync (snd : RemoteBuffer) (reg : SendRegion) : StatusOr (List Op × RemoteBuffer) :=
  let len := reg.length
  match Magic.getWriteAddr snd len with
  | .error e => .error e
  | .ok addr => .ok ([.writeImm addr (reg.payload.take len.toNat) len], written snd len)

def receive (rbuf : Buffer) (recvCq : List UInt32) :
    Option (ReceiveRegion × Buffer × List UInt32) :=
  match recvCq with
  | [] => none
  | msgLen::recvCq =>
    let (addr, rbuf) := Magic.read rbuf msgLen
    some (⟨0, addr, msgLen⟩, rbuf, recvCq)

def free (rbuf : Buffer) (reg : ReceiveRegion) : UInt32 × Buffer := Magic.free rbuf reg.addr

end WriteImm

/-- One connection with read acknowledgement: the sender's and the receiver's ring,
the acknowledged head, the ring's memory, the tail word and the receive completions,
the requests in flight, and what was sent, received and is still held. -/
structure Connection where
  snd : RemoteBuffer
  rcv : Buffer
  currOffset : UInt32
  mem : ℕ → UInt8
  tail : UInt32
  recvCq : List UInt32
  wire : List Op
  sent : List (List UInt8)
  got : List ReceiveRegion
  held : List ℕ

inductive Event where
  | send (payload : List UInt8)
  | updateHead
  | deliver
  | receive
  | free (i : ℕ)
  deriving DecidableEq, Repr

def init (addr : UInt64) (key size : UInt32) : Connection where
  snd := newRemoteBuffer (newRingBuffer addr key size).getContext
  rcv := newRingBuffer addr key size
  currOffset := 0
  mem := fun _ => 0
  tail := 0
  recvCq := []
  wire := []
  sent := []
  got := []
  held := []

def sendAsync : Format → RemoteBuffer → List UInt8 → StatusOr (List Op × RemoteBuffer)
  | .offset, snd, payload => WriteOffset.sendAsync snd (WriteOffset.getMemoryRegion payload)
  | .imm, snd, payload => WriteImm.sendAsync snd (WriteImm.getMemoryRegion payload)

def deliver (c : Connection) : Option Connection :=
  match c.wire with
  | [] => none
  | .write addr bytes::wire =>
    some { c with mem := storeAt c.rcv c.mem addr bytes, wire := wire }
  | .writeTail tail::wire => some { c with tail := tail, wire := wire }
  | .writeImm addr bytes imm::wire =>
    some { c with
      mem := storeAt c.rcv c.mem addr bytes
      recvCq := c.recvCq++[imm]
      wire := wire }

def receive (f : Format) (c : Connection) : Option (ReceiveRegion × Buffer × List UInt32) :=
  match f with
  | .offset =>
    (WriteOffset.receive c.rcv c.tail c.mem).map (fun r => (r.1, r.2, c.recvCq))
  | .imm => WriteImm.receive c.rcv c.recvCq

def free (f : Format) (rbuf : Buffer) (reg : ReceiveRegion) : UInt32 × Buffer :=
  match f with
  | .offset => WriteOffset.free rbuf reg
  | .imm => WriteImm.free rbuf reg

/-- A send is taken when its space check succeeds; before that the sender repeats
`updateHead`. Regions are freed by their place among those that are held. -/
def step (f : Format) (c : Connection) : Event → Option Connection
  | .send payload =>
    match sendAsync f c.snd payload with
    | .error _ => none
    | .ok (ops, snd) =>
      some { c with snd := snd, wire := c.wire++ops, sent := c.sent++[payload] }
  | .updateHead => some { c with snd := Magic.updateHead c.snd c.currOffset }
  | .deliver => deliver c
  | .receive =>
    match receive f c with
    | none => none
    | some (reg, rcv, recvCq) =>
      some { c with
        rcv := rcv
        recvCq := recvCq
        got := c.got++[reg]
        held := c.held++[c.got.length] }
  | .free i =>
    match c.held[i]? with
    | none => none
    | some k =>
      match c.got[k]? with
      | none => none
      | some reg =>
        let (head, rcv) := free f c.rcv reg
        some { c with rcv := rcv, currOffset := head, held := c.held.eraseIdx i }

end KYM.WriteSender
