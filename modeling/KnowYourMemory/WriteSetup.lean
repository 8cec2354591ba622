import KnowYourMemory.WriteSenders
import KnowYourMemory.ChecksumLoop

/-!
# Setup of a sender and a receiver

The objects that `Accept` and `Dial` build on the two ends of a connection, and the runs
of such a pair. Registrations succeed, and the private data arrives as it was sent. A
request takes effect as a whole and in posting order. `Receive` only reads before its
loops end, and is one step that is taken where they do.
-/

set_option autoImplicit false

namespace KYM.WriteSetup
open KYM.Run KYM.Circle KYM.RingBuffer KYM.MagicMemory
open KYM.SendAcknowledge (WriteReceiver newWriteReceiver)
open KYM.WriteConnection (Sender Acknowledger Connection ConnDetails WriteOpts acknowledgerOf
  bufferOf initReceiver initSender senderOf connect acceptConnection dialWriteConnection flushes
  wrap writeBufSize kSenderWrite kSenderWriteImm kSenderWriteReverse kBufferBasic kBufferMagic
  kBufferReverse)
open KYM.WriteSender (Op bytesAt storeAt)
open KYM.WriteSenders

/-- `sender` is the class of the object; `buffer` and `acknowledger` are those of the
objects it holds. -/
structure SenderObject where
  sender : Sender
  acknowledger : Acknowledger
  buffer : Direction
  rbuf : RemoteBuffer
  deriving DecidableEq, Repr

structure ReceiverObject where
  sender : Sender
  acknowledger : Acknowledger
  buffer : Direction
  receiver : WriteReceiver
  deriving DecidableEq, Repr

def connectSender (remote : ConnDetails) : StatusOr (Acknowledger × Direction × RemoteBuffer) :=
  match acknowledgerOf remote.opts with
  | .error e => .error e
  | .ok a =>
    match bufferOf remote.opts with
    | .error e => .error e
    | .ok d => .ok (a, d, newRemoteBuffer remote.bufferCtx)

def connectReceiver (remote : WriteOpts) : StatusOr Acknowledger := acknowledgerOf remote

def setupSender (o : WriteOpts) (remote : ConnDetails) : StatusOr SenderObject :=
  if o.sender = kSenderWrite ∧ o.buffer = kBufferBasic then
    .error ⟨.invalidArgument, "write sender with basic buffer not supported"⟩
  else
    match initSender o with
    | .error e => .error (wrap e "error initalizing sender details")
    | .ok () =>
      if remote.opts ≠ o then .error ⟨.invalidArgument, "remote options missmatch"⟩
      else
        match connectSender remote with
        | .error e => .error (wrap e "error setting up connection details")
        | .ok (a, d, rbuf) =>
          match senderOf o with
          | .error e => .error e
          | .ok k => .ok ⟨k, a, d, rbuf⟩

def setupReceiver (o : WriteOpts) (addr : UInt64) (key : UInt32) (remote : WriteOpts) :
    StatusOr ReceiverObject :=
  if o.sender = kSenderWrite ∧ o.buffer = kBufferBasic then
    .error ⟨.invalidArgument, "write sender with basic buffer not supported"⟩
  else
    match initReceiver o with
    | .error e => .error (wrap e "Error initalizing connection details")
    | .ok (_, d) =>
      if remote ≠ o then .error ⟨.invalidArgument, "remote options missmatch"⟩
      else
        match connectReceiver remote with
        | .error e => .error (wrap e "Error connecting receiver")
        | .ok a =>
          match senderOf o with
          | .error e => .error e
          | .ok k => .ok ⟨k, a, d, newWriteReceiver addr key writeBufSize⟩

def acceptSender : WriteOpts → ConnDetails → StatusOr SenderObject := setupSender

def dialWriteSender : WriteOpts → ConnDetails → StatusOr SenderObject := setupSender

def acceptReceiver : WriteOpts → UInt64 → UInt32 → WriteOpts → StatusOr ReceiverObject :=
  setupReceiver

def dialWriteReceiver : WriteOpts → UInt64 → UInt32 → WriteOpts → StatusOr ReceiverObject :=
  setupReceiver

def senderObject (c : Connection) : SenderObject := ⟨c.sender, c.acknowledger, c.buffer, c.snd⟩

def receiverObject (c : Connection) : ReceiverObject :=
  ⟨c.sender, c.acknowledger, c.buffer, c.receiver⟩

def details (o : WriteOpts) (r : WriteReceiver) : ConnDetails := ⟨o, r.rbuf.getContext⟩

/-- A sender and a receiver that both ends have accepted: one end listens with the
options `o`, the other one dials with options of its own. -/
inductive Built (o : WriteOpts) : SenderObject → ReceiverObject → Prop
  | acceptSender (o' : WriteOpts) (addr : UInt64) (key : UInt32) (s : SenderObject)
      (r : ReceiverObject) (hs : acceptSender o (details o' r.receiver) = .ok s)
      (hr : dialWriteReceiver o' addr key o = .ok r) : Built o s r
  | acceptReceiver (o' : WriteOpts) (addr : UInt64) (key : UInt32) (s : SenderObject)
      (r : ReceiverObject) (hs : dialWriteSender o' (details o r.receiver) = .ok s)
      (hr : acceptReceiver o addr key o' = .ok r) : Built o s r
  | accepted (o' : WriteOpts) (addr addr' : UInt64) (key key' : UInt32) (c c' : Connection)
      (h : acceptConnection o addr key (details o' c'.receiver) = .ok c)
      (h' : dialWriteConnection o' addr' key' (details o c.receiver) = .ok c') :
      Built o (senderObject c) (receiverObject c')
  | dialed (o' : WriteOpts) (addr addr' : UInt64) (key key' : UInt32) (c c' : Connection)
      (h : acceptConnection o addr key (details o' c'.receiver) = .ok c)
      (h' : dialWriteConnection o' addr' key' (details o c.receiver) = .ok c') :
      Built o (senderObject c') (receiverObject c)

/-- `acks` are the heads in flight to the sender, `got` the bytes that the regions had
when they were received, and `held` the region that is not freed. -/
structure Session where
  snd : RemoteBuffer
  nextId : ℕ
  receiver : WriteReceiver
  remote : Remote
  acks : List UInt32
  wire : List Op
  sent : List (List UInt8)
  got : List (List UInt8)
  held : Option ReceiveRegion

inductive Event where
  | send (payload : List UInt8)
  | get (extra : ℕ)
  | deliver
  | receive
  | free
  deriving DecidableEq, Repr

def getMemoryRegion (k : Sender) (payload : List UInt8) : SendRegion :=
  let length := UInt32.ofNat payload.length
  match k with
  | .write => ⟨putU32 (UInt32.ofNat (payload.length+8))++putU32 0, payload, length⟩
  | .offset => ⟨putU32 (UInt32.ofNat (payload.length+4)), payload, length⟩
  | .imm => ⟨[], payload, length⟩
  | .reverse => ⟨[0], payload++(putU32 (UInt32.ofNat (payload.length+5))++[1]), length⟩

structure Received where
  reg : ReceiveRegion
  rbuf : Buffer
  imms : List UInt32

section Pair

variable (crc : List UInt8 → UInt32) (s : SenderObject) (r : ReceiverObject)

def init : Session where
  snd := s.rbuf
  nextId := 1
  receiver := r.receiver
  remote := ⟨fun _ => 0, 0, []⟩
  acks := []
  wire := []
  sent := []
  got := []
  held := none

def send (c : Session) (payload : List UInt8) : Option Session :=
  match sendAsync s.sender crc s.buffer (getMemoryRegion s.sender payload) [] (.ok ()) c.snd
    c.nextId with
  | some ⟨.ok _, posted, _, snd, nextId⟩ =>
    some { c with
      snd := snd
      nextId := nextId
      wire := c.wire++posted.map SendWr.op
      sent := c.sent++[payload] }
  | _ => none

/-- `Get` and the update of the head. A send acknowledgement is taken from the front, and
`extra` further ones are polled without a look at their heads. -/
def get (c : Session) (extra : ℕ) : Option Session :=
  match s.acknowledger with
  | .read => some { c with snd := updateHead s.buffer c.snd c.receiver.currOffset }
  | .send =>
    match c.acks with
    | [] => none
    | head::acks =>
      some { c with snd := updateHead s.buffer c.snd head, acks := acks.drop extra }

def deliver (c : Session) : Option Session :=
  match c.wire with
  | [] => none
  | op::wire => some { c with remote := executeOp c.receiver.rbuf c.remote op, wire := wire }

/-- `none` while a loop goes on. In the checksum loop the first test is made with the
checksum of no bytes and the later ones with that of the message. -/
def receive (v : WriteReceiver) (m : Remote) : Option Received :=
  let rbuf := v.rbuf
  match r.sender with
  | .write =>
    let length := ChecksumLoop.head r.buffer rbuf m.mem
    let reg := WriteChecksum.region (getReadPtr r.buffer rbuf) length
    if length = 0 then none
    else if WriteChecksum.stored rbuf m.mem reg = crc [] ∨
        ChecksumLoop.Verified crc rbuf m.mem reg then
      some ⟨reg, (read r.buffer rbuf length).2, m.imms⟩
    else none
  | .offset =>
    if m.tail = getReadOff r.buffer rbuf then none
    else
      let head := getReadPtr r.buffer rbuf
      let length := getU32 (bytesAt rbuf m.mem head 4)
      some ⟨⟨0, head+4, length-4⟩, (read r.buffer rbuf length).2, m.imms⟩
  | .imm =>
    match m.imms with
    | [] => none
    | msgLen::imms =>
      let (addr, rbuf) := read r.buffer rbuf msgLen
      some ⟨⟨0, addr, msgLen⟩, rbuf, imms⟩
  | .reverse =>
    let next := getReadPtr r.buffer rbuf+v.length.toUInt64
    if bytesAt rbuf m.mem next 1 = [0] then none
    else
      let msgLen := getU32 (bytesAt rbuf m.mem (next-4) 4)
      let (addr, rbuf) := read r.buffer rbuf msgLen
      some ⟨⟨0, addr, msgLen-1-4⟩, rbuf, m.imms⟩

def cleared (k : Sender) (rbuf : Buffer) (mem : ℕ → UInt8) (reg : ReceiveRegion) : ℕ → UInt8 :=
  match k with
  | .write => storeAt rbuf mem (reg.addr-8) (List.replicate (reg.length.toNat+8) 0)
  | .imm | .offset | .reverse => mem

def free (c : Session) (reg : ReceiveRegion) : Session :=
  let (head, rbuf) := RingBuffer.free r.buffer c.receiver.rbuf (reg.addr-r.sender.header)
  let v := { c.receiver with rbuf := rbuf, currOffset := head }
  let c := { c with
    remote := { c.remote with mem := cleared r.sender rbuf c.remote.mem reg }
    held := none }
  if flushes r.sender v head then
    { c with
      receiver := { v with acked := head }
      acks := match r.acknowledger with
        | .send => c.acks++[head]
        | .read => c.acks }
  else { c with receiver := v }

def step (c : Session) : Event → Option Session
  | .send payload => send crc s c payload
  | .get extra => get s c extra
  | .deliver => deliver c
  | .receive =>
    match c.held with
    | some _ => none
    | none =>
      match receive crc r c.receiver c.remote with
      | none => none
      | some ⟨reg, rbuf, imms⟩ =>
        some { c with
          receiver := { c.receiver with rbuf := rbuf }
          remote := { c.remote with imms := imms }
          got := c.got++[bytesAt rbuf c.remote.mem reg.addr reg.length.toNat]
          held := some reg }
  | .free =>
    match c.held with
    | none => none
    | some reg => some (free r c reg)

end Pair

def claimed (k : Sender) (payload : List UInt8) : ℕ :=
  payload.length+k.overhead.toNat-k.slack.toNat

def unfreed (k : Sender) (c : Session) : ℕ :=
  ((c.sent.drop (c.got.length-c.held.toList.length)).map (claimed k)).sum

/-- Messages fit the ring. Those of the offset sender do not fill it, since that leaves the
tail word as it was, and none is sent over a ring that is full: a head that arrives then
clears the full flag. -/
def Sized (k : Sender) (c : Session) : Event → Prop
  | .send payload => claimed k payload ≤ writeBufSize.toNat ∧
      (k = .offset → claimed k payload < writeBufSize.toNat) ∧
      unfreed k c < writeBufSize.toNat
  | _ => True

instance (k : Sender) (c : Session) : ∀ e : Event, Decidable (Sized k c e)
  | .send payload => inferInstanceAs (Decidable (claimed k payload ≤ writeBufSize.toNat ∧
      (k = .offset → claimed k payload < writeBufSize.toNat) ∧
      unfreed k c < writeBufSize.toNat))
  | .get _ | .deliver | .receive | .free => isTrue trivial

/-- What was received are the first messages in order, a region keeps its bytes until it
is freed, and `Receive` returns when another message has arrived. -/
structure Delivered (crc : List UInt8 → UInt32) (s : SenderObject) (r : ReceiverObject)
    (c : Session) : Prop where
  order : c.got = c.sent.take c.got.length
  kept : ∀ reg, c.held = some reg → c.got.getLast? =
    some (bytesAt c.receiver.rbuf c.remote.mem reg.addr reg.length.toNat)
  returns : c.held = none → c.wire = [] → c.got.length < c.sent.length →
    ∃ c', step crc s r c .receive = some c'

/-- Every run of every pair that is built with these options. -/
def Delivers (crc : List UInt8 → UInt32) (o : WriteOpts) : Prop :=
  ∀ s r, Built o s r → ∀ es c, Meets (step crc s r) (Sized s.sender) es (init s r) →
    run (step crc s r) es (init s r) = some c → Delivered crc s r c

def Accepted (o : WriteOpts) : Prop := ∃ s r, Built o s r

/-- The reversed sender and the reversed ring belong together, except that a sender with
immediates needs no particular ring. -/
def Suited (o : WriteOpts) : Prop :=
  o.buffer = kBufferMagic ∧ o.sender ≠ kSenderWriteReverse ∨
    o.buffer = kBufferReverse ∧ (o.sender = kSenderWriteImm ∨ o.sender = kSenderWriteReverse)

instance (o : WriteOpts) : Decidable (Suited o) := inferInstanceAs (Decidable (_ ∨ _))

section Agreement

structure Chosen (o : WriteOpts) (k : Sender) (a : Acknowledger) (d : Direction) : Prop where
  sender : senderOf o = .ok k
  acknowledger : acknowledgerOf o = .ok a
  buffer : bufferOf o = .ok d
  allocator : initSender o = .ok ()

def senderAt (k : Sender) (a : Acknowledger) (d : Direction) (addr : UInt64) (key : UInt32) :
    SenderObject := ⟨k, a, d, newRemoteBuffer (newRingBuffer addr key writeBufSize).getContext⟩

def receiverAt (k : Sender) (a : Acknowledger) (d : Direction) (addr : UInt64) (key : UInt32) :
    ReceiverObject := ⟨k, a, d, newWriteReceiver addr key writeBufSize⟩

variable {o : WriteOpts} {s : SenderObject} {r : ReceiverObject}

theorem initReceiver_ok {a : Acknowledger} {d : Direction} (h : initReceiver o = .ok (a, d)) :
    acknowledgerOf o = .ok a ∧ bufferOf o = .ok d := by
  unfold initReceiver at h
  split at h
  · cases h
  next ha =>
  split at h
  · cases h
  next hd =>
  obtain ⟨rfl, rfl⟩ := Prod.mk.inj (Except.ok.inj h)
  exact ⟨ha, hd⟩

theorem connectSender_ok {remote : ConnDetails} {a : Acknowledger} {d : Direction}
    {rbuf : RemoteBuffer} (h : connectSender remote = .ok (a, d, rbuf)) :
    acknowledgerOf remote.opts = .ok a ∧ bufferOf remote.opts = .ok d ∧
      rbuf = newRemoteBuffer remote.bufferCtx := by
  unfold connectSender at h
  split at h
  · cases h
  next ha =>
  split at h
  · cases h
  next hd =>
  obtain ⟨rfl, hrest⟩ := Prod.mk.inj (Except.ok.inj h)
  obtain ⟨rfl, rfl⟩ := Prod.mk.inj hrest
  exact ⟨ha, hd, rfl⟩

theorem setupSender_ok (o : WriteOpts) (remote : ConnDetails) (s : SenderObject)
    (h : setupSender o remote = .ok s) : remote.opts = o ∧ ∃ k a d, Chosen o k a d ∧
      s = ⟨k, a, d, newRemoteBuffer remote.bufferCtx⟩ := by
  unfold setupSender at h
  split at h
  · cases h
  split at h
  · cases h
  next halloc =>
  split at h
  · cases h
  next heq =>
  rw [ne_eq, not_not] at heq
  split at h
  · cases h
  next a d rbuf hconn =>
  obtain ⟨ha, hd, rfl⟩ := connectSender_ok hconn
  split at h
  · cases h
  next k hk =>
  rw [heq] at ha hd
  exact ⟨heq, k, a, d, ⟨hk, ha, hd, halloc⟩, (Except.ok.inj h).symm⟩

theorem setupReceiver_ok (o : WriteOpts) (addr : UInt64) (key : UInt32) (remote : WriteOpts)
    (r : ReceiverObject) (h : setupReceiver o addr key remote = .ok r) :
    remote = o ∧ ∃ k a d, senderOf o = .ok k ∧ acknowledgerOf o = .ok a ∧ bufferOf o = .ok d ∧
      r = receiverAt k a d addr key := by
  unfold setupReceiver connectReceiver at h
  split at h
  · cases h
  split at h
  · cases h
  next a d hinit =>
  split at h
  · cases h
  next heq =>
  rw [ne_eq, not_not] at heq
  obtain ⟨ha, hd⟩ := initReceiver_ok hinit
  split at h
  · cases h
  next a' ha' =>
  rw [heq, ha] at ha'
  obtain rfl := Except.ok.inj ha'
  split at h
  · cases h
  next k hk =>
  exact ⟨heq, k, a, d, hk, ha, hd, (Except.ok.inj h).symm⟩

theorem connect_ok (o : WriteOpts) (addr : UInt64) (key : UInt32) (remote : ConnDetails)
    (c : Connection) (h : connect o addr key remote = .ok c) :
    remote.opts = o ∧ ∃ k a d, Chosen o k a d ∧
      senderObject c = ⟨k, a, d, newRemoteBuffer remote.bufferCtx⟩ ∧
      receiverObject c = receiverAt k a d addr key := by
  unfold connect at h
  split at h
  · cases h
  split at h
  · cases h
  split at h
  · cases h
  next a d hinit =>
  obtain ⟨ha, hd⟩ := initReceiver_ok hinit
  split at h
  · cases h
  next halloc =>
  split at h
  · cases h
  next heq =>
  rw [ne_eq, not_not] at heq
  split at h
  · cases h
  next k hk =>
  obtain rfl := Except.ok.inj h
  exact ⟨heq, k, a, d, ⟨hk, ha, hd, halloc⟩, rfl, rfl⟩

theorem Chosen.unique {k k' : Sender} {a a' : Acknowledger} {d d' : Direction}
    (h : Chosen o k a d) (hk : senderOf o = .ok k') (ha : acknowledgerOf o = .ok a')
    (hd : bufferOf o = .ok d') : k' = k ∧ a' = a ∧ d' = d :=
  ⟨Except.ok.inj (hk.symm.trans h.sender), Except.ok.inj (ha.symm.trans h.acknowledger),
    Except.ok.inj (hd.symm.trans h.buffer)⟩

theorem setup_agree {o' : WriteOpts} {addr : UInt64} {key : UInt32}
    (hs : setupSender o (details o' r.receiver) = .ok s)
    (hr : setupReceiver o' addr key o = .ok r) : o' = o ∧ ∃ k a d, Chosen o k a d ∧
      s = senderAt k a d addr key ∧ r = receiverAt k a d addr key := by
  obtain ⟨heq, k, a, d, hc, rfl⟩ := setupSender_ok _ _ _ hs
  obtain rfl : o' = o := heq
  obtain ⟨-, k', a', d', hk, ha, hd, rfl⟩ := setupReceiver_ok _ _ _ _ _ hr
  obtain ⟨rfl, rfl, rfl⟩ := hc.unique hk ha hd
  exact ⟨rfl, _, _, _, hc, rfl, rfl⟩

theorem connect_agree {o' : WriteOpts} {addr addr' : UInt64} {key key' : UInt32}
    {c c' : Connection} (h : connect o addr key (details o' c'.receiver) = .ok c)
    (h' : connect o' addr' key' (details o c.receiver) = .ok c') :
    o' = o ∧ ∃ k a d, Chosen o k a d ∧ senderObject c = senderAt k a d addr' key' ∧
      receiverObject c' = receiverAt k a d addr' key' := by
  obtain ⟨heq, k, a, d, hc, hs, -⟩ := connect_ok _ _ _ _ _ h
  obtain rfl : o' = o := heq
  obtain ⟨-, k', a', d', hc', -, hr⟩ := connect_ok _ _ _ _ _ h'
  obtain ⟨rfl, rfl, rfl⟩ := hc.unique hc'.sender hc'.acknowledger hc'.buffer
  have hv : c'.receiver = newWriteReceiver addr' key' writeBufSize :=
    congrArg ReceiverObject.receiver hr
  rw [details, hv] at hs
  exact ⟨rfl, _, _, _, hc, hs, hr⟩

theorem Built.agree (h : Built o s r) : ∃ k a d addr key, Chosen o k a d ∧
    s = senderAt k a d addr key ∧ r = receiverAt k a d addr key := by
  cases h with
  | acceptSender o' addr key s r hs hr =>
    obtain ⟨-, k, a, d, hc, hsr⟩ := setup_agree hs hr
    exact ⟨k, a, d, addr, key, hc, hsr⟩
  | acceptReceiver o' addr key s r hs hr =>
    obtain ⟨rfl, k, a, d, hc, hsr⟩ := setup_agree hs hr
    exact ⟨k, a, d, addr, key, hc, hsr⟩
  | accepted o' addr addr' key key' c c' h h' =>
    obtain ⟨-, k, a, d, hc, hsr⟩ := connect_agree h h'
    exact ⟨k, a, d, addr', key', hc, hsr⟩
  | dialed o' addr addr' key key' c c' h h' =>
    obtain ⟨rfl, k, a, d, hc, hsr⟩ := connect_agree h' h
    exact ⟨k, a, d, addr, key, hc, hsr⟩

theorem Chosen.built {k : Sender} {a : Acknowledger} {d : Direction} (h : Chosen o k a d)
    (addr : UInt64) (key : UInt32) : Built o (senderAt k a d addr key) (receiverAt k a d addr key) := by
  have hbasic : ¬ (o.sender = kSenderWrite ∧ o.buffer = kBufferBasic) := by
    intro hb
    have hd := h.buffer
    rw [bufferOf, if_pos hb.2] at hd
    cases hd
  apply Built.acceptSender o addr key
  · simp only [acceptSender, setupSender, if_neg hbasic, h.allocator, details, connectSender,
      h.acknowledger, h.buffer, h.sender, ne_eq, not_true_eq_false, if_false]
    rfl
  · simp only [dialWriteReceiver, setupReceiver, if_neg hbasic, initReceiver, connectReceiver,
      h.acknowledger, h.buffer, h.sender, ne_eq, not_true_eq_false, if_false]
    rfl

end Agreement

end KYM.WriteSetup
