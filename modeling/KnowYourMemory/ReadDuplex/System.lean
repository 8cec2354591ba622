import KnowYourMemory.DirectReadDelivery
import KnowYourMemory.DrainedReads
import KnowYourMemory.Exchange

/-!
# Direct read in both directions

Both ends of a connection send and receive over their queue pairs. A send completes with
the number 0, which no read has. Without those completions each direction is a direct read
of its own. Ids are natural numbers, as in `DirectRead`.
-/

set_option autoImplicit false

namespace KYM.ReadDuplex
open KYM.Run KYM.MagicMemory KYM.CompletionQueue KYM.ReadOrder KYM.Mailbox KYM.DrainedReads
open KYM.DirectRead (ReadRequest SendWr)
open KYM.RingBuffer (KeyedRegion)
open KYM.RefusedReceive (Receiver)
open KYM.Exchange (Side)
open KYM.DirectReadDelivery (System Sound Matches answerNew)

/-- `dir x` carries the messages that `x` sends; the queue pair of its reader is the one that
the reader sends with. `sending` counts the sends that have not completed, and `drained` are
the completions of reads that `SendAsync` has polled away. The regions for sending and those
for receiving lie apart, and have a memory each. -/
structure State where
  dir : Side → System
  sending : Side → ℕ
  drained : Side → List ℕ

/-- What happens in the direction of `x`, or the completion of a send of `x`. -/
inductive Event where
  | on (x : Side) (e : DirectReadDelivery.Event)
  | complete (x : Side)

def init (fence : Side → Bool) (rq : Side → ReceiveQueue.Queue) (smem rmem : Side → ℕ → UInt8) :
    State :=
  ⟨fun x => DirectReadDelivery.init (fence x) (rq x) (smem x) (rmem x), fun _ => 0, fun _ => []⟩

def State.reader (s : State) (x : Side) : DirectRead.System := (s.dir x.other).rcv.sys

def receiverWithCq (r : Receiver) (q : List ℕ) : Receiver :=
  { r with sys := { r.sys with sendCq := q } }

def withCq (s : System) (q : List ℕ) : System := { s with rcv := receiverWithCq s.rcv q }

def post (s : State) (x : Side) (t : System) : State where
  dir := Function.update (Function.update s.dir x t) x.other (withCq (s.dir x.other) [])
  sending := Function.update s.sending x (s.sending x+1)
  drained := Function.update s.drained x (s.drained x++(s.reader x).sendCq.filter isRead)

def step (s : State) : Event → Option State
  | .on x (.sendAsync k length) =>
    (DirectReadDelivery.step (s.dir x) (.sendAsync k length)).map (post s x)
  | .on x e =>
    (DirectReadDelivery.step (s.dir x) e).map (fun t => { s with dir := Function.update s.dir x t })
  | .complete x =>
    if s.sending x = 0 then none
    else some { s with
      dir := Function.update s.dir x.other (withCq (s.dir x.other) ((s.reader x).sendCq++[0]))
      sending := Function.update s.sending x (s.sending x-1) }

def Quiet (s : State) (x : Side) : DirectReadDelivery.Event → Prop
  | .sendAsync _ _ => ∀ j ∈ (s.reader x).sendCq, j = 0
  | _ => True

/-- Both directions keep their rules, and a send finds no completion of a read to drain. -/
def Careful (s : State) : Event → Prop
  | .on x e => DirectReadDelivery.Careful (s.dir x) e ∧ Quiet s x e
  | .complete _ => True

instance (s : State) (x : Side) : ∀ e : DirectReadDelivery.Event, Decidable (Quiet s x e)
  | .sendAsync _ _ => inferInstanceAs (Decidable (∀ j ∈ (s.reader x).sendCq, j = 0))
  | .getMemoryRegion _ | .freeRegion _ | .store _ _ | .wait _ | .announce _ | .call _ | .receiveNew _
  | .waitReceive _ | .perform _ | .release _ => isTrue trivial

instance (s : State) : ∀ e : Event, Decidable (Careful s e)
  | .on x e => inferInstanceAs (Decidable (DirectReadDelivery.Careful (s.dir x) e ∧ Quiet s x e))
  | .complete _ => isTrue trivial

def calls (x : Side) (s : State) : Event → List (Call Unit (List UInt8))
  | .on y e => if y = x then DirectReadDelivery.calls (s.dir x) e else []
  | .complete _ => []

def Reads : DirectReadDelivery.Event → Prop
  | .call _ | .receiveNew _ => True
  | _ => False

def Starts (x : Side) (e : Event) : Prop := ∃ e', e = .on x.other e' ∧ Reads e'

/-- The wait can be made to return without another read. -/
def CanReturn (s : State) (x : Side) (id : ℕ) : Prop :=
  ∃ es t, (∀ e ∈ es, ¬Starts x e) ∧ run step es s = some t ∧
    (step t (.on x.other (.waitReceive id))).isSome

def strip (s : System) : System := withCq s (s.rcv.sys.sendCq.filter isRead)

section Strip

variable {s t : System} {e : DirectReadDelivery.Event}

theorem withCq_self (s : System) : withCq s s.rcv.sys.sendCq = s := rfl

theorem strip_withCq (s : System) (q : List ℕ) : strip (withCq s q) = withCq s (q.filter isRead) := rfl

theorem receiveRequest_withCq (r : Receiver) (q : List ℕ) :
    RefusedReceive.receiveRequest (receiverWithCq r q) =
      (RefusedReceive.receiveRequest r).map (fun x => (x.1, receiverWithCq x.2 q)) := by
  simp only [RefusedReceive.receiveRequest, receiverWithCq]
  cases r.announced[r.taken]? with
  | none => rfl
  | some p =>
    simp only
    cases r.rq.postMR p.1 <;> rfl

theorem readInto_withCq (r : Receiver) (q : List ℕ) (addr : UInt64) (key : UInt32)
    (req : ReadRequest) : (receiverWithCq r q).readInto addr key req =
      ((r.readInto addr key req).1, receiverWithCq (r.readInto addr key req).2 q) := by
  simp only [Receiver.readInto, receiverWithCq]
  cases DirectRead.readInto r.sys.conn addr key req <;> rfl

theorem receive_withCq (r : Receiver) (q : List ℕ) (reg : KeyedRegion) :
    RefusedReceive.receive (receiverWithCq r q) reg =
      (RefusedReceive.receive r reg).map (fun x => (x.1, receiverWithCq x.2 q)) := by
  simp only [RefusedReceive.receive, receiveRequest_withCq]
  cases RefusedReceive.receiveRequest r with
  | none => rfl
  | some x =>
    obtain ⟨e | req, m⟩ := x
    · rfl
    simp only [Option.map_some, readInto_withCq]
    split
    · rfl
    · rcases m.readInto reg.addr reg.lkey req with ⟨e | id, t⟩ <;> rfl

theorem receiveAsync_withCq (r : Receiver) (q : List ℕ) (reg : KeyedRegion)
    (length : Option UInt32) : RefusedReceive.receiveAsync (receiverWithCq r q) reg length =
      (RefusedReceive.receiveAsync r reg length).map (fun x => (x.1, x.2.1, receiverWithCq x.2.2 q)) := by
  simp only [RefusedReceive.receiveAsync, receiveRequest_withCq]
  cases RefusedReceive.receiveRequest r with
  | none => rfl
  | some x =>
    obtain ⟨e | req, m⟩ := x
    · rfl
    simp only [Option.map_some, readInto_withCq]
    split <;> rfl

theorem answer_withCq (r : Receiver) (q : List ℕ) (c : RefusedReceive.Call) :
    c.answer (receiverWithCq r q) = (c.answer r).map (fun x => (x.1, receiverWithCq x.2 q)) := by
  cases c with
  | receive reg =>
    simp only [RefusedReceive.Call.answer, receive_withCq, Option.map_map]
    rfl
  | receiveAsync reg =>
    simp only [RefusedReceive.Call.answer, receiveAsync_withCq, Option.map_map]
    rfl
  | receiveAsyncLength reg length =>
    simp only [RefusedReceive.Call.answer, receiveAsync_withCq, Option.map_map]
    rfl

theorem answerNew_withCq (r : Receiver) (q : List ℕ)
    (alloc : RingBuffer.StatusOr (UInt64 × UInt32)) :
    answerNew (receiverWithCq r q) alloc =
      (answerNew r alloc).map (fun x => (x.1, receiverWithCq x.2 q)) := by
  simp only [answerNew, RefusedReceive.receiveNew, receiveRequest_withCq]
  cases RefusedReceive.receiveRequest r with
  | none => rfl
  | some x =>
    obtain ⟨e | req, m⟩ := x
    · rfl
    cases alloc with
    | error e => rfl
    | ok p =>
      simp only [Option.map_some, readInto_withCq]

theorem take_withCq (s : System) (q : List ℕ) (addr : UInt64)
    (x : Option (Option RingBuffer.Status × Receiver)) :
    DirectReadDelivery.take (withCq s q) addr (x.map (fun x => (x.1, receiverWithCq x.2 q))) =
      (DirectReadDelivery.take s addr x).map (withCq · q) := by
  cases x with
  | none => rfl
  | some x =>
    obtain ⟨e | e, r⟩ := x
    · rfl
    · rfl

def Polls : DirectReadDelivery.Event → Prop
  | .waitReceive _ | .perform _ => True
  | _ => False

theorem step_withCq (s : System) (q : List ℕ) (he : ¬Polls e) :
    DirectReadDelivery.step (withCq s q) e = (DirectReadDelivery.step s e).map (withCq · q) := by
  cases e with
  | getMemoryRegion mr => rfl
  | freeRegion k =>
    simp only [DirectReadDelivery.step, withCq]
    by_cases hk : k < s.blocks.length
    · simp [hk]
    · simp [hk]
  | store addr bytes => rfl
  | sendAsync k length =>
    simp only [DirectReadDelivery.step, DirectReadDelivery.sendAsync, withCq]
    cases s.blocks[k]? <;> rfl
  | wait id =>
    simp only [DirectReadDelivery.step, DirectReadDelivery.wait, withCq]
    by_cases hb : s.smem id.toNat = 0
    · simp [hb]
    · simp [hb]
  | announce i =>
    simp only [DirectReadDelivery.step, DirectReadDelivery.announce, withCq, receiverWithCq,
      RefusedReceive.step]
    cases s.wire with
    | nil => rfl
    | cons req rest => cases s.rcv.rq.posted[i]? <;> rfl
  | call c =>
    rw [DirectReadDelivery.step, DirectReadDelivery.step, ← take_withCq, ← answer_withCq]
    rfl
  | receiveNew alloc =>
    rw [DirectReadDelivery.step, DirectReadDelivery.step, ← take_withCq, ← answerNew_withCq]
    rfl
  | waitReceive id => exact absurd trivial he
  | perform i => exact absurd trivial he
  | release k =>
    simp only [DirectReadDelivery.step, withCq]
    by_cases hk : k < s.held.length
    · simp [hk]
    · simp [hk]

theorem cq_of_step (he : ¬Polls e) (hs : DirectReadDelivery.step s e = some t) :
    t.rcv.sys.sendCq = s.rcv.sys.sendCq := by
  have hsame := step_withCq s s.rcv.sys.sendCq he
  rw [withCq_self, hs, Option.map_some] at hsame
  have ht := Option.some.inj hsame
  rw [ht]
  rfl

theorem waitReceive_strip {id : ℕ} (h1 : 1 ≤ id)
    (hs : DirectReadDelivery.step s (.waitReceive id) = some t) :
    DirectReadDelivery.step (strip s) (.waitReceive id) = some (strip t) := by
  have hsmall : ∀ w ∈ s.rcv.sys.sendCq, isRead w = false → w < id := by
    intro w _ hw
    simp [isRead] at hw
    omega
  have hfilter := pollUntil_filter (a := s.rcv.sys.conn.ackdRcvId) isRead hsmall
  simp only [DirectReadDelivery.step, RefusedReceive.step, DirectRead.step, DirectRead.waitReceive,
    strip, withCq, receiverWithCq] at hs ⊢
  rw [← hfilter]
  cases hp : pollUntil last id s.rcv.sys.conn.ackdRcvId s.rcv.sys.sendCq with
  | none => simp [hp] at hs
  | some x =>
    simp only [hp, Option.map_some] at hs
    obtain rfl := Option.some.inj hs
    rfl

theorem perform_strip {i : ℕ} (hq : ∀ w ∈ s.rcv.sys.sendQueue, 1 ≤ w.wrId)
    (hs : DirectReadDelivery.step s (.perform i) = some t) :
    DirectReadDelivery.step (strip s) (.perform i) = some (strip t) := by
  simp only [DirectReadDelivery.step, DirectReadDelivery.perform, RefusedReceive.step, DirectRead.step,
    DirectRead.perform, strip, withCq, receiverWithCq] at hs ⊢
  cases hw : s.rcv.sys.sendQueue[i]? with
  | none => simp [hw] at hs
  | some w =>
    have hread : isRead w.wrId = true := isRead_of_pos (hq w (List.mem_of_getElem? hw))
    simp only [hw, Option.bind_eq_bind, Option.bind_some] at hs ⊢
    split at hs
    · next hover =>
      obtain rfl := Option.some.inj hs
      simp only [hover, if_true, Option.map_some, Option.bind_some]
      cases w.signaled
      · rfl
      · simp [List.filter_append, hread]
    · cases hs

theorem step_strip (hid : ∀ id, e = .waitReceive id → 1 ≤ id)
    (hq : ∀ w ∈ s.rcv.sys.sendQueue, 1 ≤ w.wrId) (hs : DirectReadDelivery.step s e = some t) :
    DirectReadDelivery.step (strip s) e = some (strip t) := by
  by_cases he : Polls e
  · cases e with
    | waitReceive id => exact waitReceive_strip (hid id rfl) hs
    | perform i => exact perform_strip hq hs
    | getMemoryRegion | freeRegion | store | sendAsync | wait | announce | call | receiveNew | release =>
      exact he.elim
  · rw [strip, step_withCq s _ he, hs, Option.map_some, strip, cq_of_step he hs]

end Strip

@[simp] theorem other_other (x : Side) : x.other.other = x := by cases x <;> rfl

theorem other_ne (x : Side) : x.other ≠ x := by cases x <;> decide

theorem eq_other {x y : Side} (h : y ≠ x) : x = y.other := by
  cases x <;> cases y <;> first | rfl | exact absurd rfl h

end KYM.ReadDuplex
