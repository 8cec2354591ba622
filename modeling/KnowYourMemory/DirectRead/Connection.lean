import KnowYourMemory.BoundedStream
import KnowYourMemory.RingBuffer
import KnowYourMemory.CompletionQueue

/-!
# Direct Read

The receiver reads a message from the memory of the sender and then sets the byte in
front of it. With fences the acknowledging write is chained to the read. Without
fences it is kept in a table of `maxRcv` entries and posted by `WaitReceive`. Ids are
natural numbers; the 64-bit words of the source would wrap after 2^64 reads.
-/

set_option autoImplicit false

namespace KYM.DirectRead
open KYM.Run KYM.Circle KYM.RingBuffer KYM.CompletionQueue

def maxRcv : ℕ := 512

structure ReadRequest where
  addr : UInt64
  key : UInt32
  length : UInt32
  deriving DecidableEq, Repr

inductive Opcode where
  | rdmaWrite
  | rdmaRead
  deriving DecidableEq, Repr

inductive Sge where
  | one
  | region (addr : UInt64) (length lkey : UInt32)
  deriving DecidableEq, Repr

structure SendWr where
  wrId : ℕ
  sge : Sge
  opcode : Opcode
  remoteAddr : UInt64
  rkey : UInt32
  signaled : Bool
  fence : Bool
  deriving DecidableEq, Repr

def wrAck (fence : Bool) (id : ℕ) (req : ReadRequest) : SendWr where
  wrId := id
  sge := .one
  opcode := .rdmaWrite
  remoteAddr := req.addr-1
  rkey := req.key
  signaled := fence
  fence := fence

def wrData (fence : Bool) (id : ℕ) (addr : UInt64) (key : UInt32) (req : ReadRequest) : SendWr where
  wrId := id
  sge := .region addr req.length key
  opcode := .rdmaRead
  remoteAddr := req.addr
  rkey := req.key
  signaled := !fence
  fence := false

structure ReadConnection where
  fence : Bool
  ackdRcvId : ℕ
  nextRcvId : ℕ
  outstandingReadWr : ℕ → SendWr

def newReadConnection (fence : Bool) : ReadConnection where
  fence := fence
  ackdRcvId := 0
  nextRcvId := 1
  outstandingReadWr := fun _ => wrAck false 0 ⟨0, 0, 0⟩

def rateLimit : Status := ⟨.rateLimit, "Too many outstanding requests"⟩

def readInto (c : ReadConnection) (addr : UInt64) (key : UInt32) (req : ReadRequest) :
    StatusOr (ℕ × List SendWr × ReadConnection) :=
  if c.nextRcvId > c.ackdRcvId+maxRcv then .error rateLimit
  else
    let id := c.nextRcvId
    let ack := wrAck c.fence id req
    let data := wrData c.fence id addr key req
    if c.fence then .ok (id, [data, ack], { c with nextRcvId := id+1 })
    else .ok (id, [data], { c with
      nextRcvId := id+1
      outstandingReadWr := Function.update c.outstandingReadWr (id%maxRcv) ack })

/-- The requests that are posted, the connection and the queue afterwards. `none` is
a loop that still polls. -/
def waitReceive (c : ReadConnection) (id : ℕ) (sendCq : List ℕ) :
    Option (List SendWr × ReadConnection × List ℕ) :=
  match pollUntil last id c.ackdRcvId sendCq with
  | none => none
  | some (ackd, sendCq) =>
    some (if c.fence then [] else [c.outstandingReadWr (id%maxRcv)],
      { c with ackdRcvId := ackd }, sendCq)

/-- A receiver and its queue pair. `requests` are those that `ReadInto` has accepted,
the `i`-th with id `i+1`; `waited` are the ids `WaitReceive` has returned for, `posted`
and `done` the requests in the order of posting and of taking effect. -/
structure System where
  conn : ReadConnection
  sendQueue : List SendWr
  sendCq : List ℕ
  requests : List ReadRequest
  waited : List ℕ
  posted : List SendWr
  done : List SendWr

inductive Event where
  | readInto (addr : UInt64) (key : UInt32) (req : ReadRequest)
  | waitReceive (id : ℕ)
  | perform (i : ℕ)
  deriving DecidableEq, Repr

def init (fence : Bool) : System where
  conn := newReadConnection fence
  sendQueue := []
  sendCq := []
  requests := []
  waited := []
  posted := []
  done := []

/-- Requests take effect in posting order, but a write without a fence may overtake
the reads that are posted before it. -/
def SendWr.mayOvertake (w earlier : SendWr) : Bool :=
  w.opcode = .rdmaWrite && !w.fence && earlier.opcode = .rdmaRead

def perform (s : System) (i : ℕ) : Option System :=
  match s.sendQueue[i]? with
  | none => none
  | some w =>
    if (s.sendQueue.take i).all w.mayOvertake then
      some { s with
        sendQueue := s.sendQueue.eraseIdx i
        sendCq := if w.signaled then s.sendCq++[w.wrId] else s.sendCq
        done := s.done++[w] }
    else none

def step (s : System) : Event → Option System
  | .readInto addr key req =>
    match readInto s.conn addr key req with
    | .error _ => some s
    | .ok (_, wrs, conn) =>
      some { s with
        conn := conn
        sendQueue := s.sendQueue++wrs
        requests := s.requests++[req]
        posted := s.posted++wrs }
  | .waitReceive id =>
    match waitReceive s.conn id s.sendCq with
    | none => none
    | some (wrs, conn, sendCq) =>
      some { s with
        conn := conn
        sendQueue := s.sendQueue++wrs
        sendCq := sendCq
        waited := s.waited++[id]
        posted := s.posted++wrs }
  | .perform i => perform s i

/-- `WaitReceive` is called once for every id that was returned. -/
def Once (s : System) : Event → Prop
  | .waitReceive id => 1 ≤ id ∧ id < s.conn.nextRcvId ∧ id ∉ s.waited
  | _ => True

/-- Without fences, an accepted `ReadInto` finds that the request which had its place
in the table has been waited for. -/
def PlaceFree (s : System) : Event → Prop
  | .readInto _ _ _ => s.conn.fence = true ∨ s.conn.ackdRcvId+maxRcv < s.conn.nextRcvId ∨
      s.conn.nextRcvId ≤ maxRcv ∨ s.conn.nextRcvId-maxRcv ∈ s.waited
  | _ => True

def Regular (s : System) (e : Event) : Prop := Once s e ∧ PlaceFree s e

instance (s : System) : ∀ e : Event, Decidable (Once s e)
  | .waitReceive id => inferInstanceAs (Decidable (1 ≤ id ∧ id < s.conn.nextRcvId ∧ id ∉ s.waited))
  | .readInto _ _ _ | .perform _ => isTrue trivial

instance (s : System) : ∀ e : Event, Decidable (PlaceFree s e)
  | .readInto _ _ _ => inferInstanceAs (Decidable (_ ∨ _ ∨ _ ∨ _))
  | .waitReceive _ | .perform _ => isTrue trivial

instance (s : System) (e : Event) : Decidable (Regular s e) :=
  inferInstanceAs (Decidable (_ ∧ _))

end KYM.DirectRead
