import KnowYourMemory.Mailbox
import KnowYourMemory.ReceiveBuffers
import KnowYourMemory.SendRegions

/-!
# Connections that send to a listener

Each connection has a receive queue with an area of its own in the memory of the listener. A
message is copied from the region that was posted into a receive buffer of its connection.
Work requests succeed, and the messages of a connection arrive in posting order, each in
some posted buffer.
-/

set_option autoImplicit false

namespace KYM.ListenerDelivery
open KYM.Run KYM.RingBuffer KYM.ReceiveQueue KYM.ReceiveBuffers KYM.Mailbox KYM.SendRegions
open KYM.ReceiveBuffers.Listener (qpOf wrOf)

/-- The memory of a receive queue: `count` buffers of `size` bytes. -/
structure Area where
  addr : UInt64
  size : UInt64
  count : ℕ
  deriving DecidableEq, Repr

def area (q : Queue) : Area := ⟨q.mrAddr, q.transferSize, q.inflight⟩

def Area.bufferAddr (A : Area) (wrId : UInt32) : UInt64 := A.addr+wrId.toUInt64*A.size

def Area.stop (A : Area) : ℕ := A.addr.toNat+A.count*A.size.toNat

/-- The area lies in memory, and its buffers have a length of 32 bits. -/
def Area.Allocated (A : Area) : Prop := A.stop ≤ 2^64 ∧ A.size.toNat < 2^32 ∧ A.count < 2^32

def Area.Apart (A B : Area) : Prop := A.stop ≤ B.addr.toNat ∨ B.stop ≤ A.addr.toNat

def Area.In (A : Area) (i : ℕ) (p : ℕ × ℕ) : Prop :=
  i < A.count ∧ p.1 = A.addr.toNat+i*A.size.toNat ∧ p.2 ≤ A.size.toNat

instance (A : Area) : Decidable A.Allocated := inferInstanceAs (Decidable (_ ∧ _))

instance (A B : Area) : Decidable (A.Apart B) := inferInstanceAs (Decidable (_ ∨ _))

section Areas

variable {A B : Area} {i j : ℕ} {p q : ℕ × ℕ}

theorem In.within (h : A.In i p) : A.addr.toNat ≤ p.1 ∧ p.1+p.2 ≤ A.stop := by
  obtain ⟨hi, h1, h2⟩ := h
  have hle := Nat.mul_le_mul_right A.size.toNat (Nat.succ_le_of_lt hi)
  rw [Nat.succ_mul] at hle
  unfold Area.stop
  omega

theorem In.apart (hp : A.In i p) (hq : A.In j q) (h : i ≠ j) : (plain : Medium (ℕ → UInt8) _ _).Apart p q := by
  obtain ⟨-, h1, h2⟩ := hp
  obtain ⟨-, h3, h4⟩ := hq
  rcases Nat.lt_or_gt_of_ne h with hlt | hlt
  · have hle := Nat.mul_le_mul_right A.size.toNat (Nat.succ_le_of_lt hlt)
    rw [Nat.succ_mul] at hle
    exact Or.inl (by omega)
  · have hle := Nat.mul_le_mul_right A.size.toNat (Nat.succ_le_of_lt hlt)
    rw [Nat.succ_mul] at hle
    exact Or.inr (by omega)

theorem In.apart_areas (h : A.Apart B) (hp : A.In i p) (hq : B.In j q) :
    (plain : Medium (ℕ → UInt8) _ _).Apart p q := by
  obtain ⟨h1, h2⟩ := In.within hp
  obtain ⟨h3, h4⟩ := In.within hq
  rcases h with h | h
  · exact Or.inl (by omega)
  · exact Or.inr (by omega)

instance apartSymm : Std.Symm (fun x y : UInt32 × Area => x.2.Apart y.2) := ⟨fun _ _ => Or.symm⟩

theorem bufferAddr_toNat (h : A.Allocated) (wrId : UInt32) (hw : wrId.toNat < A.count) :
    (A.bufferAddr wrId).toNat = A.addr.toNat+wrId.toNat*A.size.toNat := by
  have hle := Nat.mul_le_mul_right A.size.toNat (Nat.succ_le_of_lt hw)
  have hstop := h.1
  have haddr := A.addr.toNat_lt
  rw [Nat.succ_mul] at hle
  unfold Area.stop at hstop
  have hlt : A.addr.toNat+wrId.toNat*A.size.toNat < 2^64 := by
    rcases Nat.eq_zero_or_pos A.size.toNat with h0 | h0
    · rw [h0]
      omega
    · omega
  rw [Area.bufferAddr, UInt64.toNat_add, UInt64.toNat_mul, UInt32.toNat_toUInt64,
    Nat.mod_eq_of_lt (by omega : wrId.toNat*A.size.toNat < 2^64), Nat.mod_eq_of_lt hlt]

end Areas

structure System where
  ln : Listener
  mem : ℕ → UInt8
  senders : UInt32 → Sender
  areas : List (UInt32 × Area)

inductive Event where
  | accept (qpNum capacity : UInt32) (mrAddr : UInt64) (lkey : UInt32)
      (transferSize inflight : UInt64)
  | sender (qpNum : UInt32) (e : SendRegions.Event)
  | deliver (qpNum : UInt32) (i : ℕ)
  | receive
  | free (k : ℕ)
  deriving DecidableEq, Repr

def init (mem : ℕ → UInt8) (mems : UInt32 → ℕ → UInt8) : System :=
  ⟨Listener.init, mem, fun qpNum => SendRegions.init (mems qpNum), []⟩

def accept (s : System) (qpNum capacity : UInt32) (mrAddr : UInt64) (lkey : UInt32)
    (transferSize inflight : UInt64) : Option System :=
  (s.ln.accept qpNum capacity mrAddr lkey transferSize inflight).map (fun ln => { s with
    ln := ln
    areas := s.areas++[(qpNum, ⟨mrAddr, transferSize, inflight.toNat⟩)] })

/-- The oldest request of a connection is executed: its message is copied to a posted
buffer, and both sides get their completions. -/
def deliver (s : System) (qpNum : UInt32) (i : ℕ) : Option System := do
  let (m, sender) ← transmit (s.senders qpNum)
  let q ← s.ln.rqs qpNum
  let r ← q.posted[i]?
  let ln ← s.ln.arrive qpNum i (UInt32.ofNat m.length)
  if m.length ≤ r.sge.length.toNat then
    some { s with
      ln := ln
      mem := MagicMemory.put s.mem r.sge.addr.toNat m
      senders := Function.update s.senders qpNum sender }
  else none

def step (s : System) : Event → Option System
  | .accept qpNum capacity mrAddr lkey transferSize inflight =>
    accept s qpNum capacity mrAddr lkey transferSize inflight
  | .sender qpNum e => (SendRegions.step (s.senders qpNum) e).map (fun sender =>
      { s with senders := Function.update s.senders qpNum sender })
  | .deliver qpNum i => deliver s qpNum i
  | .receive => s.ln.receive.map (fun ln => { s with ln := ln })
  | .free k => (s.ln.free k).map (fun ln => { s with ln := ln })

def calls (s : System) : Event → List (Call UInt32 (List UInt8))
  | .sender qpNum e => (posts (s.senders qpNum) e).map (.send qpNum)
  | .receive => (s.ln.rcvCq.take 1).map (fun wc => .receive wc.qpNum)
  | .free k => [.free k]
  | .accept .. | .deliver .. => []

/-- Receive queues get memory of their own, and the senders keep to their regions. -/
def Careful (s : System) : Event → Prop
  | .accept _ _ mrAddr _ transferSize inflight =>
    let A : Area := ⟨mrAddr, transferSize, inflight.toNat⟩
    A.Allocated ∧ ∀ x ∈ s.areas, x.2.Apart A
  | .sender qpNum e => Leaves (s.senders qpNum) e
  | _ => True

instance (s : System) : ∀ e : Event, Decidable (Careful s e)
  | .accept _ _ _ _ _ _ => inferInstanceAs (Decidable (_ ∧ _))
  | .sender qpNum e => inferInstanceAs (Decidable (Leaves (s.senders qpNum) e))
  | .deliver .. | .receive | .free _ => isTrue trivial

def System.areaOf (s : System) (qpNum : UInt32) : Option Area := (s.ln.rqs qpNum).map area

def System.place (s : System) (wc : Wc) : ℕ × ℕ :=
  (((s.areaOf wc.qpNum).map (fun A => (A.bufferAddr wc.wrId.toUInt32).toNat)).getD 0,
    wc.byteLen.toNat)

def regionPlace (reg : ReceiveRegion) : ℕ × ℕ := (reg.addr.toNat, reg.length.toNat)

def System.transport (s : System) : Transport (ℕ → UInt8) UInt32 Unit (ℕ × ℕ) (List UInt8) where
  mem := s.mem
  carried qpNum := (s.senders qpNum).carried
  inbox _ := s.ln.rcvCq.map (fun wc => (wc.qpNum, s.place wc))
  held := s.ln.held.map (fun reg => (qpOf reg.context, regionPlace reg))

structure Sound (s : System) : Prop where
  ln : Listener.Sound s.ln
  senders : ∀ qpNum, SendRegions.Sound (s.senders qpNum)
  areas : ∀ qpNum A, s.areaOf qpNum = some A → (qpNum, A) ∈ s.areas
  allocated : ∀ x ∈ s.areas, x.2.Allocated
  apart : s.areas.Pairwise (fun x y => x.2.Apart y.2)
  unpolled : ∀ wc ∈ s.ln.rcvCq, ∃ A, s.areaOf wc.qpNum = some A ∧ A.In wc.wrId.toNat (s.place wc)
  held : ∀ reg ∈ s.ln.held, ∃ A, s.areaOf (qpOf reg.context) = some A ∧
    A.In (wrOf reg.context).toNat (regionPlace reg)

end KYM.ListenerDelivery
