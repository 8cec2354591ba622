import KnowYourMemory.SendAcknowledge
import KnowYourMemory.CompletionQueue

/-!
# Duplex write connections

Sender and receiver of a `WriteConnection` share one queue pair. Data writes, heads
that are flushed by a send acknowledger and heads that are read by the sender all
complete on the same queue: data writes with their id, the others with id 0.
-/

set_option autoImplicit false

namespace KYM.WriteConnection
open KYM.Run KYM.Circle KYM.RingBuffer KYM.CompletionQueue
open KYM.SendAcknowledge (WriteReceiver newWriteReceiver)

/-- The four fields of three bits. -/
structure WriteOpts where
  allocator : Fin 8
  acknowledger : Fin 8
  sender : Fin 8
  buffer : Fin 8
  deriving DecidableEq, Repr

def kAllocatorDumb : Fin 8 := 0
def kAcknowledgerSend : Fin 8 := 0
def kAcknowledgerRead : Fin 8 := 1
def kSenderWrite : Fin 8 := 0
def kSenderWriteImm : Fin 8 := 1
def kSenderWriteOffset : Fin 8 := 2
def kSenderWriteReverse : Fin 8 := 4
def kBufferBasic : Fin 8 := 0
def kBufferMagic : Fin 8 := 1
def kBufferReverse : Fin 8 := 2

def writeBufSize : UInt32 := 16*1024*1024

inductive Acknowledger where
  | send
  | read
  deriving DecidableEq, Repr

inductive Sender where
  | write
  | imm
  | offset
  | reverse
  deriving DecidableEq, Repr

def Sender.overhead : Sender → UInt32
  | .write => 8
  | .imm => 0
  | .offset => 4
  | .reverse => 6

def Sender.slack : Sender → UInt32
  | .reverse => 1
  | _ => 0

def Sender.header : Sender → UInt64
  | .write => 8
  | .offset => 4
  | .imm | .reverse => 0

def Sender.record : Sender → ℕ → ℕ → ℕ
  | .imm => last
  | .write | .offset | .reverse => greatest

structure Connection where
  sender : Sender
  acknowledger : Acknowledger
  buffer : Direction
  snd : RemoteBuffer
  receiver : WriteReceiver
  queue : SendQueue
  ackdId : ℕ
  nextId : ℕ
  held : List UInt64
  deriving DecidableEq, Repr

/-- What the peer sends during the setup. -/
structure ConnDetails where
  opts : WriteOpts
  bufferCtx : BufferContext
  deriving DecidableEq, Repr

def wrap (s : Status) (message : String) : Status := ⟨s.code, message++"\n"++s.message⟩

def acknowledgerOf (o : WriteOpts) : StatusOr Acknowledger :=
  if o.acknowledger = kAcknowledgerRead then .ok .read
  else if o.acknowledger = kAcknowledgerSend then .ok .send
  else .error ⟨.invalidArgument, "unkown acknowledger option"⟩

def bufferOf (o : WriteOpts) : StatusOr Direction :=
  if o.buffer = kBufferBasic then .error ⟨.notImplemented, "basic buffer not implemented"⟩
  else if o.buffer = kBufferMagic then .ok .up
  else if o.buffer = kBufferReverse then .ok .down
  else .error ⟨.invalidArgument, "unkown buffer option"⟩

def initReceiver (o : WriteOpts) : StatusOr (Acknowledger × Direction) :=
  match acknowledgerOf o with
  | .error e => .error e
  | .ok a =>
    match bufferOf o with
    | .error e => .error e
    | .ok d => .ok (a, d)

def initSender (o : WriteOpts) : StatusOr Unit :=
  if o.allocator = kAllocatorDumb then .ok ()
  else .error ⟨.invalidArgument, "unkown allocator option"⟩

def senderOf (o : WriteOpts) : StatusOr Sender :=
  if o.sender = kSenderWrite then .ok .write
  else if o.sender = kSenderWriteReverse then .ok .reverse
  else if o.sender = kSenderWriteImm then .ok .imm
  else if o.sender = kSenderWriteOffset then .ok .offset
  else .error ⟨.invalidArgument, "unkown sender option"⟩

def connect (o : WriteOpts) (addr : UInt64) (key : UInt32) (remote : ConnDetails) :
    StatusOr Connection :=
  if o.sender = kSenderWrite ∧ o.buffer = kBufferBasic then
    .error ⟨.invalidArgument, "write sender with basic buffer not supported"⟩
  else if o.sender = kSenderWriteImm ∧ o.acknowledger = kAcknowledgerSend then
    .error ⟨.invalidArgument,
      "duplex connection with WriteImm and Send Acknowledger not supported"⟩
  else
    match initReceiver o with
    | .error e => .error (wrap e "Error initalizing receiver details")
    | .ok (a, d) =>
      match initSender o with
      | .error e => .error (wrap e "error initalizing sender details")
      | .ok () =>
        if remote.opts ≠ o then .error ⟨.invalidArgument, "remote options missmatch"⟩
        else
          match senderOf o with
          | .error e => .error e
          | .ok sender => .ok {
              sender := sender
              acknowledger := a
              buffer := d
              snd := newRemoteBuffer remote.bufferCtx
              receiver := newWriteReceiver addr key writeBufSize
              queue := .empty
              ackdId := 0
              nextId := 1
              held := [] }

def acceptConnection : WriteOpts → UInt64 → UInt32 → ConnDetails → StatusOr Connection := connect

def dialWriteConnection : WriteOpts → UInt64 → UInt32 → ConnDetails → StatusOr Connection := connect

/-- The loop of `ReadAckReceiver::Get` keeps the id of a completion in an `int`. -/
def pollHead : List ℕ → List ℕ
  | [] => []
  | w::ws => if w%2^32 = 0 then ws else pollHead ws

/-- What `Get` does to the send queue. A send acknowledgement is polled from the
receive queue. -/
def get (a : Acknowledger) (q : SendQueue) : SendQueue :=
  match a with
  | .send => q
  | .read => (q.post 0).polled (pollHead (q.post 0).wrs)

def flush (a : Acknowledger) (q : SendQueue) : SendQueue :=
  match a with
  | .send => (q.post 0).drop
  | .read => q

/-- The loop that gets heads until the space check succeeds. `heads` are the heads
that `Get` returns, one after another; those that are left over are returned. -/
def getWriteAddrOrDie (a : Acknowledger) (d : Direction) (len : UInt32) :
    List UInt32 → RemoteBuffer → SendQueue → Option (List UInt32 × RemoteBuffer × SendQueue)
  | heads, snd, q =>
    match getWriteAddr d snd len, heads with
    | .ok _, heads => some (heads, snd, q)
    | .error _, [] => none
    | .error _, h::hs => getWriteAddrOrDie a d len hs (updateHead d snd h) (get a q)

def written (d : Direction) (snd : RemoteBuffer) (len : UInt32) : RemoteBuffer :=
  match write d snd len with
  | .ok (_, snd') => snd'
  | .error _ => snd

def reserve (s : Sender) (a : Acknowledger) (d : Direction) :
    List UInt32 → List UInt32 → RemoteBuffer → SendQueue → Option (RemoteBuffer × SendQueue)
  | [], heads, snd, q => if heads.isEmpty then some (snd, q) else none
  | size::sizes, heads, snd, q =>
    let len := size+s.overhead
    match getWriteAddrOrDie a d len heads snd q with
    | none => none
    | some (heads, snd, q) => reserve s a d sizes heads (written d snd (len-s.slack)) q

def sendAsync (c : Connection) (sizes heads : List UInt32) : Option Connection :=
  match reserve c.sender c.acknowledger c.buffer sizes heads c.snd c.queue with
  | none => none
  | some (snd, q) => some { c with snd := snd, queue := q.post c.nextId, nextId := c.nextId+1 }

def wait (c : Connection) (id : ℕ) : Option Connection :=
  match c.queue.wait c.sender.record id c.ackdId with
  | none => none
  | some (ackd, q) => some { c with ackdId := ackd, queue := q }

def receive (c : Connection) (len : UInt32) : Connection :=
  let (ptr, rbuf) := read c.buffer c.receiver.rbuf len
  let start := match c.sender with
    | .write | .offset => getReadPtr c.buffer c.receiver.rbuf
    | .imm | .reverse => ptr
  { c with
    receiver := { c.receiver with rbuf := rbuf }
    held := c.held++[start+c.sender.header] }

def flushes (s : Sender) (r : WriteReceiver) (head : UInt32) : Bool :=
  match s with
  | .write | .imm | .offset => r.flushes head
  | .reverse => (head < r.acked ∧ r.acked-head > r.maxUnacked) ∨
      (head > r.acked ∧ r.acked+(r.length-head) > r.maxUnacked)

def freed (c : Connection) (addr : UInt64) : UInt32 × Buffer :=
  RingBuffer.free c.buffer c.receiver.rbuf (addr-c.sender.header)

def free (c : Connection) (i : ℕ) : Option Connection :=
  match c.held[i]? with
  | none => none
  | some addr =>
    let (head, rbuf) := freed c addr
    let r := { c.receiver with rbuf := rbuf, currOffset := head }
    let c := { c with held := c.held.eraseIdx i }
    if flushes c.sender r head then
      some { c with receiver := { r with acked := head }, queue := flush c.acknowledger c.queue }
    else some { c with receiver := r }

inductive Event where
  | sendAsync (size : UInt32) (heads : List UInt32)
  | sendBatch (sizes heads : List UInt32)
  | wait (id : ℕ)
  | receive (len : UInt32)
  | free (i : ℕ)
  | complete
  deriving DecidableEq, Repr

/-- The reversed sender does not implement batches. For an empty batch the offset sender posts
its tail write alone; the other two have no request to post. -/
def step (c : Connection) : Event → Option Connection
  | .sendAsync size heads => sendAsync c [size] heads
  | .sendBatch sizes heads =>
    if c.sender = .reverse then some c
    else if sizes.isEmpty ∧ c.sender ≠ .offset then none
    else sendAsync c sizes heads
  | .wait id => wait c id
  | .receive len => some (receive c len)
  | .free i => free c i
  | .complete =>
    match c.queue.complete with
    | none => none
    | some q => some { c with queue := q }

def Flushing (c : Connection) (i : ℕ) : Bool :=
  match c.held[i]? with
  | none => false
  | some addr => flushes c.sender c.receiver (freed c addr).1

/-- A send acknowledger does not flush while the next completion to be polled is that
of the last `SendAsync`. -/
def Harmless (c : Connection) : Event → Prop
  | .free i => c.acknowledger = .send → Flushing c i = true →
      c.queue.wrs.head? ≠ some (c.nextId-1) ∨ c.nextId = 1
  | _ => True

instance (c : Connection) : ∀ e : Event, Decidable (Harmless c e)
  | .free _ => inferInstanceAs (Decidable (_ → _ → _ ∨ _))
  | .sendAsync _ _ | .sendBatch _ _ | .wait _ | .receive _ | .complete => isTrue trivial

/-- For every id that was returned the completion is recorded or still to be polled,
and `Wait` returns. -/
def NothingLost (c : Connection) : Prop :=
  ∀ id, 1 ≤ id → id < c.nextId →
    (id ≤ c.ackdId ∨ ∃ w ∈ c.queue.wrs, id ≤ w) ∧ ∃ c', step c (.wait id) = some c'

def NewestOwed (c : Connection) : Prop :=
  1 ≤ c.nextId ∧ c.queue.Owed (c.nextId-1) c.ackdId

section Steps

variable {c c' : Connection}

theorem le_record (s : Sender) (a w : ℕ) : w ≤ s.record a w := by
  cases s
  case imm => exact le_last a w
  all_goals exact le_greatest a w

theorem sendAsync_views (sizes heads : List UInt32) (hs : sendAsync c sizes heads = some c') :
    c'.nextId = c.nextId+1 ∧ ∃ q : SendQueue, c'.queue = q.post c.nextId := by
  unfold sendAsync at hs
  split at hs
  · cases hs
  · obtain rfl := Option.some.inj hs
    exact ⟨rfl, _, rfl⟩

theorem newestOwed_sendAsync (sizes heads : List UInt32)
    (hs : sendAsync c sizes heads = some c') : NewestOwed c' := by
  obtain ⟨hn, q, hq⟩ := sendAsync_views sizes heads hs
  refine ⟨by omega, ?_⟩
  rw [hq, hn, Nat.add_sub_cancel]
  exact SendQueue.owed_post _ _ q

theorem wait_views (id : ℕ) (hs : wait c id = some c') :
    ∃ ackd q, c.queue.wait c.sender.record id c.ackdId = some (ackd, q) ∧
      c' = { c with ackdId := ackd, queue := q } := by
  unfold wait at hs
  cases hw : c.queue.wait c.sender.record id c.ackdId with
  | none => simp [hw] at hs
  | some p =>
    simp only [hw, Option.some.injEq] at hs
    exact ⟨p.1, p.2, rfl, hs.symm⟩

theorem free_views (i : ℕ) (hs : free c i = some c') :
    c'.nextId = c.nextId ∧ c'.ackdId = c.ackdId ∧
      c'.queue = if Flushing c i then flush c.acknowledger c.queue else c.queue := by
  unfold free at hs
  cases hh : c.held[i]? with
  | none => simp [hh] at hs
  | some addr =>
    have hfl : Flushing c i = flushes c.sender c.receiver (freed c addr).1 := by
      simp only [Flushing, hh]
    have hrw : flushes c.sender { c.receiver with
        rbuf := (freed c addr).2, currOffset := (freed c addr).1 } (freed c addr).1 =
        flushes c.sender c.receiver (freed c addr).1 := by
      cases c.sender <;> rfl
    simp only [hh, hrw, ← hfl] at hs
    by_cases hf : Flushing c i = true
    · rw [if_pos hf] at hs ⊢
      obtain rfl := Option.some.inj hs
      exact ⟨rfl, rfl, rfl⟩
    · rw [if_neg hf] at hs ⊢
      obtain rfl := Option.some.inj hs
      exact ⟨rfl, rfl, rfl⟩

theorem NewestOwed.flush (h : NewestOwed c) (hh : c.acknowledger = .send →
    c.queue.wrs.head? ≠ some (c.nextId-1) ∨ c.nextId = 1) :
    (flush c.acknowledger c.queue).Owed (c.nextId-1) c.ackdId := by
  cases ha : c.acknowledger with
  | read => exact h.2
  | send =>
    rcases hh ha with hne | h1
    · exact h.2.post_drop hne 0
    · exact Or.inl (by omega)

theorem NewestOwed.step (h : NewestOwed c) (e : Event) (he : Harmless c e)
    (hs : step c e = some c') : NewestOwed c' := by
  cases e with
  | sendAsync size heads => exact newestOwed_sendAsync [size] heads hs
  | sendBatch sizes heads =>
    simp only [WriteConnection.step] at hs
    split at hs
    · obtain rfl := Option.some.inj hs
      exact h
    · split at hs
      · cases hs
      · exact newestOwed_sendAsync sizes heads hs
  | wait id =>
    obtain ⟨ackd, q, hw, rfl⟩ := wait_views id hs
    exact ⟨h.1, h.2.wait (le_record c.sender) hw⟩
  | receive len =>
    obtain rfl := Option.some.inj hs
    exact h
  | free i =>
    obtain ⟨hn, ha, hq⟩ := free_views i hs
    refine ⟨hn ▸ h.1, ?_⟩
    rw [hn, ha, hq]
    by_cases hf : Flushing c i = true
    · rw [if_pos hf]
      exact h.flush (fun hsend => he hsend hf)
    · rw [if_neg hf]
      exact h.2
  | complete =>
    simp only [WriteConnection.step] at hs
    cases hc : c.queue.complete with
    | none => simp [hc] at hs
    | some q =>
      simp only [hc] at hs
      obtain rfl := Option.some.inj hs
      exact ⟨h.1, h.2.complete hc⟩

theorem NewestOwed.nothingLost (h : NewestOwed c) : NothingLost c := by
  intro id h1 hlt
  constructor
  · rcases h.2 with hle | hm
    · exact Or.inl (by omega)
    · exact Or.inr ⟨_, hm, by omega⟩
  · obtain ⟨b, q, hw⟩ := h.2.wait_returns (le_record c.sender) (show id ≤ c.nextId-1 by omega)
    exact ⟨{ c with ackdId := b, queue := q }, by simp only [WriteConnection.step, wait, hw]⟩

end Steps

theorem connect_newestOwed (o : WriteOpts) (addr : UInt64) (key : UInt32) (remote : ConnDetails)
    (c : Connection) (h : connect o addr key remote = .ok c) : NewestOwed c := by
  unfold connect at h
  repeat' split at h
  all_goals cases h
  exact ⟨le_refl _, Or.inl (le_refl _)⟩

/-- Duplex connections lose no completion that `Wait` needs in the runs where no flush
takes the completion of the last send. -/
theorem completions_kept (o : WriteOpts) (addr : UInt64) (key : UInt32) (remote : ConnDetails)
    (c₀ : Connection) (h₀ : acceptConnection o addr key remote = .ok c₀ ∨
      dialWriteConnection o addr key remote = .ok c₀) (es : List Event) (c : Connection)
    (hm : Meets step Harmless es c₀) (hr : run step es c₀ = some c) : NothingLost c := by
  have hinit : NewestOwed c₀ := by
    rcases h₀ with h₀ | h₀ <;> exact connect_newestOwed o addr key remote c₀ h₀
  exact (run_keeps step Harmless NewestOwed (fun _ e _ h he hs => h.step e he hs) es c₀ c hinit
    hm hr).nothingLost

def sendOpts : WriteOpts where
  allocator := kAllocatorDumb
  acknowledger := kAcknowledgerSend
  sender := kSenderWrite
  buffer := kBufferMagic

def peer : ConnDetails := ⟨sendOpts, ⟨1048576, 9, writeBufSize⟩⟩

def duplex : Connection where
  sender := .write
  acknowledger := .send
  buffer := .up
  snd := newRemoteBuffer peer.bufferCtx
  receiver := newWriteReceiver 65536 7 writeBufSize
  queue := .empty
  ackdId := 0
  nextId := 1
  held := []

def keptTrace : List Event :=
  [.sendAsync 100 [], .complete, .sendAsync 200 [], .receive 9000000, .free 0, .complete,
    .wait 2]

theorem completions_kept_flush : ∃ c, run step keptTrace duplex = some c ∧ NothingLost c := by
  have hr := run_get step keptTrace duplex (by decide +kernel)
  exact ⟨_, hr, completions_kept sendOpts 65536 7 peer duplex (Or.inl rfl) keptTrace _
    (by decide +kernel) hr⟩

def lossTrace : List Event := [.sendAsync 100 [], .complete, .receive 9000000, .free 0]

theorem completion_lost : acceptConnection sendOpts 65536 7 peer = .ok duplex ∧
    ∃ c, run step lossTrace duplex = some c ∧ 1 < c.nextId ∧ step c (.wait 1) = none ∧
      ¬NothingLost c := by
  have hr := run_get step lossTrace duplex (by decide +kernel)
  have hw : step ((run step lossTrace duplex).get (by decide +kernel)) (.wait 1) = none := by
    decide +kernel
  have hn : 1 < ((run step lossTrace duplex).get (by decide +kernel)).nextId := by decide +kernel
  refine ⟨rfl, _, hr, hn, hw, ?_⟩
  intro h
  obtain ⟨-, c', hc⟩ := h 1 (le_refl 1) hn
  rw [hw] at hc
  cases hc

end KYM.WriteConnection
