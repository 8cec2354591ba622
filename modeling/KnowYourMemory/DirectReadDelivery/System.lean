import KnowYourMemory.Mailbox
import KnowYourMemory.MagicMemory
import KnowYourMemory.RefusedReceive

/-!
# Both ends of a direct read

The sender announces a message where it lies, and waits for the byte in front of it to be
set; the receiver reads the message into a region of its own and sets the byte.
-/

set_option autoImplicit false

namespace KYM.DirectReadDelivery
open KYM.Run KYM.MagicMemory KYM.DirectRead KYM.Mailbox
open KYM.RingBuffer (KeyedRegion refusal)
open KYM.RefusedReceive (Receiver)

structure Region where
  addr : UInt64
  length : UInt32
  lkey : UInt32
  deriving DecidableEq, Repr

inductive Stage where
  | posted
  | taken (id : ℕ)
  | acked (id : ℕ)
  deriving DecidableEq, Repr

/-- A message that starts behind the first byte of its block. `since` is the number of
requests that the receiver had accepted when it was sent. -/
structure Pending where
  block : Region
  length : UInt32
  since : ℕ
  stage : Stage
  deriving DecidableEq, Repr

def Pending.req (p : Pending) : ReadRequest := ⟨p.block.addr+1, p.block.lkey, p.length⟩

/-- A region with the message of the given id. -/
structure Held where
  id : ℕ
  addr : UInt64
  length : UInt32
  deriving DecidableEq, Repr

/-- `wire` are the requests that have not arrived, `blocks` what the sender has allocated. -/
structure System where
  rcv : Receiver
  smem : ℕ → UInt8
  rmem : ℕ → UInt8
  blocks : List Region
  pending : List Pending
  wire : List ReadRequest
  held : List Held

/-- `sendAsync` is given the region in the block with the given place, with a length that the
application may have changed. -/
inductive Event where
  | getMemoryRegion (mr : Region)
  | freeRegion (k : ℕ)
  | store (addr : ℕ) (bytes : List UInt8)
  | sendAsync (k : ℕ) (length : UInt32)
  | wait (id : UInt64)
  | announce (i : ℕ)
  | call (c : RefusedReceive.Call)
  | receiveNew (alloc : RingBuffer.StatusOr (UInt64 × UInt32))
  | waitReceive (id : ℕ)
  | perform (i : ℕ)
  | release (k : ℕ)

def init (fence : Bool) (rq : ReceiveQueue.Queue) (smem rmem : ℕ → UInt8) : System :=
  ⟨RefusedReceive.init fence rq, smem, rmem, [], [], [], []⟩

def callRegion : RefusedReceive.Call → KeyedRegion
  | .receive reg | .receiveAsync reg | .receiveAsyncLength reg _ => reg

def next (r : Receiver) : ReadRequest :=
  ((r.announced[r.taken]?).map Prod.snd).getD ⟨0, 0, 0⟩

def getMemoryRegion (s : System) (mr : Region) : System :=
  { s with smem := put s.smem mr.addr.toNat [0], blocks := s.blocks++[mr] }

def sendAsync (s : System) (k : ℕ) (length : UInt32) : Option System :=
  match s.blocks[k]? with
  | none => none
  | some b =>
    let p : Pending := ⟨b, length, s.rcv.sys.requests.length, .posted⟩
    some { s with pending := s.pending++[p], wire := s.wire++[p.req] }

def wait (s : System) (id : UInt64) : Option System :=
  if s.smem id.toNat = 0 then none
  else some { s with
    smem := put s.smem id.toNat [0]
    pending := s.pending.filter (fun p => p.block.addr ≠ id) }

def announce (s : System) (i : ℕ) : Option System :=
  match s.wire with
  | [] => none
  | req::rest =>
    (RefusedReceive.step s.rcv (.announce i req)).map (fun rcv => { s with rcv := rcv, wire := rest })

def Pending.accepted (req : ReadRequest) (id : ℕ) (p : Pending) : Pending :=
  if p.req = req then { p with stage := .taken id } else p

def accept (s : System) (rcv : Receiver) (addr : UInt64) : System :=
  { s with
    rcv := rcv
    pending := s.pending.map (Pending.accepted (next s.rcv) rcv.sys.requests.length)
    held := s.held++[⟨rcv.sys.requests.length, addr, (next s.rcv).length⟩] }

def take (s : System) (addr : UInt64) :
    Option (Option RingBuffer.Status × Receiver) → Option System
  | none => none
  | some (some _, rcv) => some { s with rcv := rcv }
  | some (none, rcv) => some (accept s rcv addr)

def allocated : RingBuffer.StatusOr (UInt64 × UInt32) → UInt64
  | .ok (addr, _) => addr
  | .error _ => 0

def answerNew (r : Receiver) (alloc : RingBuffer.StatusOr (UInt64 × UInt32)) :
    Option (Option RingBuffer.Status × Receiver) :=
  (RefusedReceive.receiveNew r alloc).map (fun x => (refusal x.1, x.2))

/-- What a request that takes effect does to the memories of both sides. The byte that is
written is the constant of the receiver. -/
def effect (smem rmem : ℕ → UInt8) (w : SendWr) : (ℕ → UInt8) × (ℕ → UInt8) :=
  match w.opcode, w.sge with
  | .rdmaRead, .region addr length _ =>
    (smem, put rmem addr.toNat (fetch smem w.remoteAddr.toNat length.toNat))
  | .rdmaRead, .one => (smem, rmem)
  | .rdmaWrite, .region addr length _ =>
    (put smem w.remoteAddr.toNat (fetch rmem addr.toNat length.toNat), rmem)
  | .rdmaWrite, .one => (put smem w.remoteAddr.toNat [1], rmem)

def Pending.ack (w : SendWr) (p : Pending) : Pending :=
  if w.opcode = .rdmaWrite ∧ p.stage = .taken w.wrId then { p with stage := .acked w.wrId } else p

def perform (s : System) (i : ℕ) : Option System := do
  let w ← s.rcv.sys.sendQueue[i]?
  let rcv ← RefusedReceive.step s.rcv (.perform i)
  some { s with
    rcv := rcv
    smem := (effect s.smem s.rmem w).1
    rmem := (effect s.smem s.rmem w).2
    pending := s.pending.map (Pending.ack w) }

def step (s : System) : Event → Option System
  | .getMemoryRegion mr => some (getMemoryRegion s mr)
  | .freeRegion k => if k < s.blocks.length then some { s with blocks := s.blocks.eraseIdx k } else none
  | .store addr bytes => some { s with smem := put s.smem addr bytes }
  | .sendAsync k length => sendAsync s k length
  | .wait id => wait s id
  | .announce i => announce s i
  | .call c => take s (callRegion c).addr (c.answer s.rcv)
  | .receiveNew alloc => take s (allocated alloc) (answerNew s.rcv alloc)
  | .waitReceive id =>
    (RefusedReceive.step s.rcv (.waitReceive id)).map (fun rcv => { s with rcv := rcv })
  | .perform i => perform s i
  | .release k => if k < s.held.length then some { s with held := s.held.eraseIdx k } else none

def content (mem : ℕ → UInt8) (req : ReadRequest) : List UInt8 :=
  fetch mem req.addr.toNat req.length.toNat

def System.waiting (s : System) : List ReadRequest :=
  (s.rcv.announced.drop s.rcv.taken).map Prod.snd++s.wire

def takes (s : System) : Option (Option RingBuffer.Status × Receiver) → List (Call Unit (List UInt8))
  | none => []
  | some (none, _) => [.receive ()]
  | some (some _, _) => [.receive (), .free s.held.length]

def calls (s : System) : Event → List (Call Unit (List UInt8))
  | .sendAsync k length => (s.blocks[k]?).toList.map (fun b =>
      .send () (content s.smem ⟨b.addr+1, b.lkey, length⟩))
  | .call c => takes s (c.answer s.rcv)
  | .receiveNew alloc => takes s (answerNew s.rcv alloc)
  | .release k => [.free k]
  | .getMemoryRegion _ | .freeRegion _ | .store .. | .wait _ | .announce _ | .waitReceive _
  | .perform _ => []

/-- Two ranges of bytes do not overlap. -/
def Apart (p q : ℕ × ℕ) : Prop := p.1+p.2 ≤ q.1 ∨ q.1+q.2 ≤ p.1

instance (p q : ℕ × ℕ) : Decidable (Apart p q) := inferInstanceAs (Decidable (_ ∨ _))

def Region.range (b : Region) : ℕ × ℕ := (b.addr.toNat, b.length.toNat)

def Held.range (x : Held) : ℕ × ℕ := (x.addr.toNat, x.length.toNat)

/-- The bytes of a block that only the connection changes: all of them while its message is
under way, else the first one. -/
def System.kept (s : System) (b : Region) : ℕ × ℕ :=
  (b.addr.toNat, if b.addr ∈ s.pending.map (fun p => p.block.addr) then b.length.toNat else 1)

/-- A region for the next message lies apart from those that are held, and the place of the
next id in the table is free. -/
def Clear (s : System) (addr : UInt64) (length : UInt32) : Prop :=
  (∀ x ∈ s.held, Apart (addr.toNat, length.toNat) x.range) ∧
    PlaceFree s.rcv.sys (.readInto addr 0 ⟨0, 0, length⟩)

/-- The rules that the applications at both ends keep. -/
def Careful (s : System) : Event → Prop
  | .getMemoryRegion mr => 1 ≤ mr.length.toNat ∧ mr.addr.toNat+mr.length.toNat < 2^64 ∧
      ∀ b ∈ s.blocks, Apart mr.range b.range
  | .freeRegion k => ∀ b ∈ s.blocks[k]?, b.addr ∉ s.pending.map (fun p => p.block.addr)
  | .store addr bytes => ∀ b ∈ s.blocks, Apart (addr, bytes.length) (s.kept b)
  | .sendAsync k length => ∀ b ∈ s.blocks[k]?, length.toNat+1 ≤ b.length.toNat ∧
      b.addr ∉ s.pending.map (fun p => p.block.addr)
  | .call c => Clear s (callRegion c).addr (callRegion c).length
  | .receiveNew alloc => Clear s (allocated alloc) (next s.rcv).length
  | .waitReceive id => Once s.rcv.sys (.waitReceive id)
  | .release k => ∀ x ∈ s.held[k]?, x.id ∈ s.rcv.sys.waited
  | .wait id => id ∈ s.pending.map (fun p => p.block.addr)
  | .announce _ | .perform _ => True

instance (s : System) (addr : UInt64) (length : UInt32) : Decidable (Clear s addr length) :=
  inferInstanceAs (Decidable (_ ∧ _))

instance (s : System) : ∀ e : Event, Decidable (Careful s e)
  | .getMemoryRegion _ => inferInstanceAs (Decidable (_ ∧ _ ∧ ∀ b ∈ s.blocks, _))
  | .freeRegion k => inferInstanceAs (Decidable (∀ b ∈ s.blocks[k]?, _))
  | .store .. => inferInstanceAs (Decidable (∀ b ∈ s.blocks, _))
  | .sendAsync k _ => inferInstanceAs (Decidable (∀ b ∈ s.blocks[k]?, _))
  | .wait id => inferInstanceAs (Decidable (id ∈ s.pending.map _))
  | .call _ | .receiveNew _ => inferInstanceAs (Decidable (Clear _ _ _))
  | .waitReceive id => inferInstanceAs (Decidable (Once s.rcv.sys (.waitReceive id)))
  | .release k => inferInstanceAs (Decidable (∀ x ∈ s.held[k]?, _))
  | .announce _ | .perform _ => isTrue trivial

end KYM.DirectReadDelivery
